import KernelDesign.ExecuteFailure
import KernelDesign.FsAccess
import Mathlib.Data.Finset.Erase
import Mathlib.Data.Finset.Insert
import Mathlib.Order.Bounds.Basic
import Mathlib.Order.Fin.Basic

/-!
# The descriptor table as a set

A process sees its descriptors as a set: the numbers of 2 to 7 that `open`
has returned and `close` has not taken back. `Session` runs the descriptor
calls of one process, with keyboard interrupts between them, and keeps that
set beside the kernel; it reads nothing of the table.

`TableInv` relates the eight slots to the set: descriptors 0 and 1 are the
terminal, an open slot is in use with a jump table, and any other is not
and has none. `execute` sets it up whatever the block held before, every
call keeps it, and `DescriptorSpec`, what the calls promise in terms of the
set, follows from it.
-/

namespace KernelDesign

open Kernel Transition

variable {k : Kernel} {p : ℕ} {S : Finset (Fin 8)}

/-! ## The set model -/

/-- The descriptors `open` can return. -/
def freeSlots (S : Finset (Fin 8)) : Set (Fin 8) := {i | 2 ≤ i.val ∧ i ∉ S}

/-- The set after a call that returned `v`. -/
def openedAfter (S : Finset (Fin 8)) (c : FileCall) (v : ℤ) : Finset (Fin 8) :=
  match c with
  | .openFile _ => if 0 ≤ v then insert (fdIndex v) S else S
  | .closeFile fd => if v = 0 then S.erase (fdIndex fd) else S
  | .readFile .. | .writeFile .. | .getargs .. => S

/-- **A session**: the kernel and the set of open descriptors. -/
structure Session where
  kernel : Kernel
  opened : Finset (Fin 8)

/-- What happens in a session. -/
inductive SessionEvent
  | call (c : FileCall)
  | key (sc : UInt8)

/-- A step of the session of the process whose control block is at `p`. A
call that does not return has no step. -/
def Session.step (p : ℕ) (s : Session) : SessionEvent → Option Session
  | .call c =>
    match s.kernel.fileCall p c with
    | .ok r => some ⟨r.2, openedAfter s.opened c r.1⟩
    | .error _ => none
  | .key sc => some ⟨s.kernel.kbdIntrHandler sc, s.opened⟩

/-! ## The invariant -/

/-- The jump table of a type of entry. -/
def jumpTable : ℕ → FopTable
  | 0 => .rtc
  | 1 => .dir
  | _ => .file

/-- **A slot holds a freshly opened entry.** -/
structure Installs (d : Dentry) (f : FileDes) : Prop where
  fopTable : f.fopTable = jumpTable d.filetype
  offset : f.offset = 0
  inUseFlag : f.inUseFlag = 1
  inode : d.filetype = 2 → f.inodeType = Words.i32 d.inode

/-- **The table of a set of open descriptors.** -/
structure TableInv (files : Fin 8 → FileDes) (S : Finset (Fin 8)) : Prop where
  stdin : files 0 = ⟨.stdin, 0, 0, 1⟩
  stdout : files 1 = ⟨.stdout, 0, 0, 1⟩
  range : ∀ i ∈ S, 2 ≤ i.val
  opened : ∀ i ∈ S, (files i).inUseFlag = 1 ∧ (files i).fopTable ≠ .null
  closed : ∀ i, 2 ≤ i.val → i ∉ S →
    (files i).inUseFlag = 0 ∧ (files i).fopTable = .null

/-- The entry types of a directory are those of the format. -/
def TypesKnown (fs : FileSystem) : Prop := ∀ i, (fs.bootBlock.direntries i).filetype ≤ 2

/-- A new process has nothing open. -/
theorem tableInv_fresh : TableInv freshFiles ∅ where
  stdin := rfl
  stdout := rfl
  range i hi := absurd hi (Finset.notMem_empty i)
  opened i hi := absurd hi (Finset.notMem_empty i)
  closed i hi _ := by
    have h0 : i ≠ 0 := fun h => by rw [h] at hi; exact absurd hi (by decide)
    have h1 : i ≠ 1 := fun h => by rw [h] at hi; exact absurd hi (by decide)
    rw [freshFiles, if_neg h0, if_neg h1]
    exact ⟨rfl, rfl⟩

/-- The three kinds of slot. -/
theorem slot_cases (S : Finset (Fin 8)) (i : Fin 8) :
    (i = 0 ∨ i = 1) ∨ (2 ≤ i.val ∧ i ∈ S) ∨ (2 ≤ i.val ∧ i ∉ S) := by
  by_cases hi : 2 ≤ i.val
  · by_cases hS : i ∈ S
    · exact Or.inr (Or.inl ⟨hi, hS⟩)
    · exact Or.inr (Or.inr ⟨hi, hS⟩)
  · refine Or.inl ?_
    have hlt : i.val = 0 ∨ i.val = 1 := by omega
    rcases hlt with h0 | h1
    · exact Or.inl (Fin.ext h0)
    · exact Or.inr (Fin.ext h1)

/-- The slots `open` hands out are not those of the terminal. -/
theorem zero_ne_of_two_le {i : Fin 8} (hi : 2 ≤ i.val) : (0 : Fin 8) ≠ i := by
  rintro rfl
  exact absurd hi (by decide)

theorem one_ne_of_two_le {i : Fin 8} (hi : 2 ≤ i.val) : (1 : Fin 8) ≠ i := by
  rintro rfl
  exact absurd hi (by decide)

namespace TableInv

variable {files : Fin 8 → FileDes} (h : TableInv files S)

include h

/-- **A slot is in use exactly when it has a jump table.** -/
theorem inUse_iff (i : Fin 8) :
    (files i).inUseFlag ≠ 0 ↔ (files i).fopTable ≠ .null := by
  rcases slot_cases S i with (rfl | rfl) | ⟨-, hi⟩ | ⟨hi2, hi⟩
  · rw [h.stdin]
    decide
  · rw [h.stdout]
    decide
  · obtain ⟨hflag, htable⟩ := h.opened i hi
    rw [hflag]
    exact iff_of_true (by decide) htable
  · obtain ⟨hflag, htable⟩ := h.closed i hi2 hi
    rw [hflag, htable]
    exact iff_of_false (fun h => h rfl) (fun h => h rfl)

/-- A slot of 2 to 7 is in use exactly when it is in the set. -/
theorem mem_iff {i : Fin 8} (hi : 2 ≤ i.val) : i ∈ S ↔ (files i).inUseFlag = 1 := by
  by_cases hS : i ∈ S
  · exact iff_of_true hS (h.opened i hS).1
  · refine iff_of_false hS ?_
    rw [(h.closed i hi hS).1]
    decide

/-- **Opening a slot.** -/
theorem insert {i : Fin 8} {f : FileDes} (hi : 2 ≤ i.val) (hflag : f.inUseFlag = 1)
    (htable : f.fopTable ≠ .null) :
    TableInv (fun j => if j = i then f else files j) (insert i S) where
  stdin := by
    rw [if_neg (zero_ne_of_two_le hi)]
    exact h.stdin
  stdout := by
    rw [if_neg (one_ne_of_two_le hi)]
    exact h.stdout
  range j hj := by
    rcases Finset.mem_insert.mp hj with rfl | hj
    · exact hi
    · exact h.range j hj
  opened j hj := by
    by_cases hji : j = i
    · rw [if_pos hji]
      exact ⟨hflag, htable⟩
    · rw [if_neg hji]
      exact h.opened j ((Finset.mem_insert.mp hj).resolve_left hji)
  closed j hj hjS := by
    have hji : j ≠ i := fun hji => hjS (hji ▸ Finset.mem_insert_self j S)
    rw [if_neg hji]
    exact h.closed j hj (fun hS => hjS (Finset.mem_insert_of_mem hS))

/-- **Closing a slot.** -/
theorem erase {i : Fin 8} (hi : 2 ≤ i.val) :
    TableInv (fun j => if j = i then .free else files j) (S.erase i) where
  stdin := by
    rw [if_neg (zero_ne_of_two_le hi)]
    exact h.stdin
  stdout := by
    rw [if_neg (one_ne_of_two_le hi)]
    exact h.stdout
  range j hj := h.range j (Finset.mem_of_mem_erase hj)
  opened j hj := by
    rw [if_neg (Finset.ne_of_mem_erase hj)]
    exact h.opened j (Finset.mem_of_mem_erase hj)
  closed j hj hjS := by
    by_cases hji : j = i
    · rw [if_pos hji]
      exact ⟨rfl, rfl⟩
    · rw [if_neg hji]
      exact h.closed j hj (fun hS => hjS (Finset.mem_erase.mpr ⟨hji, hS⟩))

/-- A change of the offset of a file keeps the invariant. -/
theorem setOffset {i : Fin 8} (hfile : (files i).fopTable = .file) (o : ℤ) :
    TableInv (fun j => if j = i then { files i with offset := o } else files j) S where
  stdin := by
    rw [if_neg (fun h0 => by rw [← h0, h.stdin] at hfile; cases hfile)]
    exact h.stdin
  stdout := by
    rw [if_neg (fun h1 => by rw [← h1, h.stdout] at hfile; cases hfile)]
    exact h.stdout
  range := h.range
  opened j hj := by
    by_cases hji : j = i
    · rw [if_pos hji]
      exact hji ▸ h.opened j hj
    · rw [if_neg hji]
      exact h.opened j hj
  closed j hj hjS := by
    by_cases hji : j = i
    · rw [if_pos hji]
      exact hji ▸ h.closed j hj hjS
    · rw [if_neg hji]
      exact h.closed j hj hjS

/-- The loop of `open` stops at the smallest free number. -/
theorem isLeast_of_freeSlot {q : Pcb} (hq : q.fileArray = files) {i : Fin 8}
    (hfree : q.freeSlot = some i) : IsLeast (freeSlots S) i := by
  obtain ⟨hi, n, hn, hget, hbefore⟩ := List.find?_eq_some_iff_getElem.mp hfree
  rw [decide_eq_true_eq, hq] at hi
  refine ⟨⟨hi.1, fun hS => ?_⟩, fun j hj => ?_⟩
  · rw [(h.opened i hS).1] at hi
    exact absurd hi.2 (by decide)
  · -- An earlier number was passed over, so it is not free.
    by_contra hlt
    have hjn : j.val < n := by
      rw [List.getElem_finRange] at hget
      have hval := congrArg Fin.val hget
      have hji := Fin.not_le.mp hlt
      simp only [Fin.val_cast] at hval
      omega
    have hpass := hbefore j.val hjn
    rw [List.getElem_finRange] at hpass
    have hclosed := (h.closed j hj.1 hj.2).1
    rw [← hq] at hclosed
    simp only [Bool.not_eq_true', decide_eq_false_iff_not] at hpass
    exact hpass ⟨hj.1, hclosed⟩

/-- The loop of `open` fails when every number is taken. -/
theorem freeSlots_of_freeSlot {q : Pcb} (hq : q.fileArray = files)
    (hfree : q.freeSlot = none) : freeSlots S = ∅ := by
  refine Set.eq_empty_of_forall_notMem (fun i hi => ?_)
  have hpass := List.find?_eq_none.mp hfree i (List.mem_finRange i)
  have hclosed := (h.closed i hi.1 hi.2).1
  rw [← hq] at hclosed
  exact hpass (decide_eq_true ⟨hi.1, hclosed⟩)

end TableInv

/-! ## The calls keep the invariant -/

/-- The slot of a descriptor in range has its number. -/
theorem fdIndex_val {fd : ℤ} (h0 : 0 ≤ fd) (h7 : fd ≤ 7) : ((fdIndex fd).val : ℤ) = fd := by
  show ((fd.toNat % 8 : ℕ) : ℤ) = fd
  omega

/-- The slot of the number of a slot. -/
theorem fdIndex_natCast (i : Fin 8) : fdIndex (i.val : ℤ) = i := by
  refine Fin.ext ?_
  have hi := i.isLt
  have hval : ((fdIndex (i.val : ℤ)).val : ℤ) = i.val :=
    fdIndex_val (by omega) (by omega)
  omega

/-- **What a lookup of a name gives**: the name is not empty, the lookup
succeeds and fills in the entry. -/
def NameFound (fs : FileSystem) (filename : Option Bytes) (d : Dentry) : Prop :=
  ∃ f, filename = some f ∧ f 0 ≠ 0
    ∧ (readDentryByName fs (some f) (some unsetDentry)).ret = 0
    ∧ (readDentryByName fs (some f) (some unsetDentry)).dentry = some d

/-- **The lookup of `open`**: it fails, or it finds an entry of a known
type. -/
theorem openLookup_cases {fs : FileSystem} (htypes : TypesKnown fs)
    (filename : Option Bytes) :
    let l := readDentryByName fs filename (some unsetDentry)
    (l.ret = -1 ∧ ∀ d, ¬ NameFound fs filename d)
      ∨ ∃ d, l.ret = 0 ∧ l.dentry = some d ∧ d.filetype ≤ 2 ∧ NameFound fs filename d := by
  cases filename with
  | none => exact Or.inl ⟨rfl, fun d ⟨f, hf, _⟩ => nomatch hf⟩
  | some f =>
    rcases readDentryByName_found fs f unsetDentry with ⟨hret, -⟩ | ⟨h0, j, hj, hret, hd⟩
    · refine Or.inl ⟨hret, fun d ⟨g, hg, _, hret', _⟩ => ?_⟩
      cases hg
      rw [hret] at hret'
      exact absurd hret' (by decide)
    · refine Or.inr ⟨fs.direntry j, hret, hd, ?_, f, rfl, h0, hret, hd⟩
      rw [FileSystem.direntry, dif_pos hj]
      exact htypes ⟨j, hj⟩

/-- The contents of a slot that `open` fills from an entry of a known
type. -/
theorem fileDes_installs {d : Dentry} (h : d.filetype ≤ 2) :
    ∃ f, d.fileDes = some f ∧ Installs d f ∧ f.fopTable ≠ .null := by
  obtain ⟨name, type, inode⟩ := d
  have hcases : type = 0 ∨ type = 1 ∨ type = 2 := by
    dsimp only at h
    omega
  rcases hcases with rfl | rfl | rfl
  · exact ⟨_, rfl, ⟨rfl, rfl, rfl, nofun⟩, nofun⟩
  · exact ⟨_, rfl, ⟨rfl, rfl, rfl, nofun⟩, nofun⟩
  · exact ⟨⟨.file, Words.i32 inode, 0, 1⟩, rfl, ⟨rfl, rfl, rfl, fun _ => by dsimp only⟩,
      nofun⟩

section Calls

variable (htypes : TypesKnown k.fs) (hinv : TableInv (k.pcb p).fileArray S)

include hinv

include htypes in
/-- **`open` in terms of the set**: it is refused, or it installs the entry
found in the smallest free slot. -/
theorem sysOpen_cases (filename : Option Bytes) :
    (sysOpen k p filename = (-1, k)
        ∧ ((∀ d, ¬ NameFound k.fs filename d) ∨ freeSlots S = ∅))
      ∨ ∃ d f i, NameFound k.fs filename d ∧ IsLeast (freeSlots S) i
          ∧ Installs d f ∧ f.fopTable ≠ .null
          ∧ (sysOpen k p filename).1 = i.val
          ∧ ((sysOpen k p filename).2.pcb p).fileArray
              = fun j => if j = i then f else (k.pcb p).fileArray j := by
  rcases openLookup_cases htypes filename with ⟨hret, hno⟩ | ⟨d, hret, hd, htype, hfound⟩
  · refine Or.inl ⟨?_, Or.inl hno⟩
    unfold sysOpen
    rw [if_pos hret]
  · have hne : (0 : ℤ) ≠ -1 := by decide
    cases hfree : (k.pcb p).freeSlot with
    | none =>
      refine Or.inl ⟨?_, Or.inr (hinv.freeSlots_of_freeSlot rfl hfree)⟩
      simp only [sysOpen, hret, if_neg hne, hfree]
    | some i =>
      obtain ⟨f, hf, hinst, htable⟩ := fileDes_installs htype
      refine Or.inr ⟨d, f, i, hfound, hinv.isLeast_of_freeSlot rfl hfree, hinst, htable,
        ?_, ?_⟩
      · simp only [sysOpen, hret, if_neg hne, hfree]
      · simp only [sysOpen, hret, if_neg hne, hfree, hd, Option.getD_some, hf,
          setPcb_pcb_self]
        rfl

/-- **`close` of an open descriptor.** -/
theorem sysClose_of_mem {i : Fin 8} (hi : i ∈ S) :
    (sysClose k p i.val).1 = 0
      ∧ ((sysClose k p i.val).2.pcb p).fileArray
          = fun j => if j = i then .free else (k.pcb p).fileArray j := by
  have hlo := hinv.range i hi
  have hlt := i.isLt
  unfold sysClose
  rw [if_neg (by omega), fdIndex_natCast, if_neg (not_not_intro (hinv.opened i hi).1)]
  refine ⟨rfl, ?_⟩
  rw [setPcb_pcb_self]
  rfl

/-- **`close` of any other number** is refused. -/
theorem sysClose_of_notMem {fd : ℤ} (hfd : ∀ i ∈ S, fd ≠ i.val) :
    sysClose k p fd = (-1, k) := by
  unfold sysClose
  split
  · rfl
  · rename_i hrange
    have hval : ((fdIndex fd).val : ℤ) = fd := fdIndex_val (by omega) (by omega)
    have hclosed : fdIndex fd ∉ S := fun hS => hfd _ hS hval.symm
    rw [if_pos]
    rw [(hinv.closed _ (by omega) hclosed).1]
    decide

/-- **`read` never calls through a null table.** -/
theorem sysRead_ne_nullCall (stack : ℕ → ℤ) (fd : ℤ) (buf : Option Bytes) (n : ℤ) :
    sysRead k p stack fd buf n ≠ .error .nullCall := by
  unfold sysRead
  split
  · exact nofun
  · split
    · exact nofun
    · dsimp only
      split
      · exact nofun
      · rename_i hflag
        have htable := (hinv.inUse_iff (fdIndex fd)).mp hflag
        split
        · exact nofun
        · exact nofun
        · exact nofun
        · -- The terminal reader may wait, but it makes no call through a table.
          unfold termRead
          dsimp only
          split
          · exact nofun
          · split
            · exact nofun
            · split <;> exact nofun
        · exact nofun
        · rename_i hnull
          exact absurd hnull htable

/-- **`write` never calls through a null table.** -/
theorem sysWrite_ne_nullCall (fd : ℤ) (buf : Option Bytes) (n : ℤ) :
    sysWrite k p fd buf n ≠ .error .nullCall := by
  unfold sysWrite
  split
  · exact nofun
  · dsimp only
    split
    · exact nofun
    · rename_i hflag
      have htable := (hinv.inUse_iff (fdIndex fd)).mp hflag
      split
      · exact nofun
      · exact nofun
      · unfold rtcWrite
        split
        · exact nofun
        · dsimp only
          split <;> exact nofun
      · exact nofun
      · exact nofun
      · rename_i hnull
        exact absurd hnull htable

/-- A `read` that returns keeps the invariant: it writes at most the offset
of a file. -/
theorem sysRead_tableInv {stack : ℕ → ℤ} {fd : ℤ} {buf : Option Bytes} {n : ℤ}
    {r : SysResult} (h : sysRead k p stack fd buf n = .ok r) :
    TableInv (r.kernel.pcb p).fileArray S := by
  unfold sysRead at h
  cases buf with
  | none =>
    cases h
    exact hinv
  | some b =>
    dsimp only at h
    split at h
    · cases h
      exact hinv
    · split at h
      · cases h
        exact hinv
      · split at h
        · rename_i hfile
          cases h
          unfold fsFileRead
          dsimp only
          rw [setPcb_pcb_self]
          exact hinv.setOffset hfile _
        · cases h
          exact hinv
        · cases h
          exact hinv
        · rcases termRead_kernel h with hk | hk
          · rw [hk]
            exact hinv
          · rw [hk]
            exact hinv
        · cases h
          exact hinv
        · cases h

include htypes in
/-- **Every call keeps the invariant**, with the set it leaves. -/
theorem fileCall_tableInv {c : FileCall} {r : ℤ × Kernel} (h : k.fileCall p c = .ok r) :
    TableInv (r.2.pcb p).fileArray (openedAfter S c r.1) := by
  cases c with
  | openFile filename =>
    cases h
    rcases sysOpen_cases htypes hinv filename with
      ⟨hopen, -⟩ | ⟨d, f, i, -, hleast, hinst, htable, hret, hfiles⟩
    · rw [hopen]
      exact hinv
    · rw [hfiles, hret, openedAfter, if_pos (Int.natCast_nonneg _), fdIndex_natCast]
      exact hinv.insert hleast.1.1 hinst.inUseFlag htable
  | closeFile fd =>
    cases h
    by_cases hmem : ∃ i ∈ S, fd = i.val
    · obtain ⟨i, hi, rfl⟩ := hmem
      obtain ⟨hret, hfiles⟩ := sysClose_of_mem hinv hi
      rw [hfiles, hret, openedAfter, if_pos rfl, fdIndex_natCast]
      exact hinv.erase (hinv.range i hi)
    · rw [sysClose_of_notMem hinv (fun i hi hfd => hmem ⟨i, hi, hfd⟩)]
      exact hinv
  | readFile stack fd buf n =>
    simp only [fileCall] at h
    cases hread : sysRead k p stack fd buf n with
    | error t =>
      rw [hread] at h
      cases h
    | ok s =>
      rw [hread] at h
      cases h
      exact sysRead_tableInv hinv hread
  | writeFile fd buf n =>
    simp only [fileCall] at h
    cases hwrite : sysWrite k p fd buf n with
    | error t =>
      rw [hwrite] at h
      cases h
    | ok s =>
      rw [hwrite] at h
      cases h
      obtain ⟨c, reg, hk⟩ := sysWrite_kernel hwrite
      show TableInv (s.kernel.pcb p).fileArray S
      rw [hk]
      exact hinv
  | getargs buf n =>
    cases h
    rw [sysGetargs_kernel]
    exact hinv

end Calls

/-! ## What the calls promise -/

/-- **The descriptor calls in terms of the set of open descriptors.** -/
structure DescriptorSpec (k : Kernel) (p : ℕ) (S : Finset (Fin 8)) : Prop where
  /-- `open` of a name that is found takes the smallest free number. -/
  open_found : ∀ filename d i, NameFound k.fs filename d → IsLeast (freeSlots S) i →
    let r := sysOpen k p filename
    r.1 = i.val ∧ Installs d ((r.2.pcb p).fileArray i)
      ∧ ∀ j, j ≠ i → (r.2.pcb p).fileArray j = (k.pcb p).fileArray j
  /-- Any other `open` is refused. -/
  open_refused : ∀ filename, (∀ d, ¬ NameFound k.fs filename d) ∨ freeSlots S = ∅ →
    let r := sysOpen k p filename
    r.1 = -1 ∧ (r.2.pcb p).fileArray = (k.pcb p).fileArray
  /-- `close` of an open descriptor frees it and no other. -/
  close_open : ∀ i ∈ S,
    let r := sysClose k p i.val
    r.1 = 0 ∧ (r.2.pcb p).fileArray i = .free
      ∧ ∀ j, j ≠ i → (r.2.pcb p).fileArray j = (k.pcb p).fileArray j
  /-- Any other `close` is refused. -/
  close_refused : ∀ fd : ℤ, (∀ i ∈ S, fd ≠ i.val) →
    let r := sysClose k p fd
    r.1 = -1 ∧ (r.2.pcb p).fileArray = (k.pcb p).fileArray
  /-- Descriptors 0 and 1 are the terminal. -/
  stdin : (k.pcb p).fileArray 0 = ⟨.stdin, 0, 0, 1⟩
  stdout : (k.pcb p).fileArray 1 = ⟨.stdout, 0, 0, 1⟩
  /-- Open, in use and with a jump table are the same for 2 to 7, and in
  use and with a jump table for all. -/
  mem_iff : ∀ i, 2 ≤ i.val → (i ∈ S ↔ ((k.pcb p).fileArray i).inUseFlag = 1)
  inUse_iff : ∀ i,
    ((k.pcb p).fileArray i).inUseFlag ≠ 0 ↔ ((k.pcb p).fileArray i).fopTable ≠ .null
  /-- No call goes through a null table. -/
  read_dispatch : ∀ stack fd buf n, sysRead k p stack fd buf n ≠ .error .nullCall
  write_dispatch : ∀ fd buf n, sysWrite k p fd buf n ≠ .error .nullCall

/-- The invariant gives the promises. -/
theorem TableInv.spec (htypes : TypesKnown k.fs) (h : TableInv (k.pcb p).fileArray S) :
    DescriptorSpec k p S where
  open_found filename d i hfound hleast := by
    rcases sysOpen_cases htypes h filename with
      ⟨-, hno | hno⟩ | ⟨d', f, i', hfound', hleast', hinst, -, hret, hfiles⟩
    · exact absurd hfound (hno d)
    · have hi := hleast.1
      rw [hno] at hi
      exact absurd hi (Set.notMem_empty i)
    · obtain rfl := hleast.unique hleast'
      have hd : d = d' := by
        obtain ⟨g, hg, -, -, hd⟩ := hfound
        obtain ⟨g', hg', -, -, hd'⟩ := hfound'
        rw [hg] at hg'
        cases hg'
        rw [hd] at hd'
        exact Option.some.inj hd'
      subst hd
      dsimp only
      rw [hfiles]
      refine ⟨hret, ?_, fun j hj => if_neg hj⟩
      show Installs d (if i = i then f else _)
      rw [if_pos rfl]
      exact hinst
  open_refused filename hno := by
    rcases sysOpen_cases htypes h filename with
      ⟨hopen, -⟩ | ⟨d, f, i, hfound, hleast, -⟩
    · dsimp only
      rw [hopen]
      exact ⟨rfl, rfl⟩
    · rcases hno with hno | hno
      · exact absurd hfound (hno d)
      · have hi := hleast.1
        rw [hno] at hi
        exact absurd hi (Set.notMem_empty i)
  close_open i hi := by
    obtain ⟨hret, hfiles⟩ := sysClose_of_mem h hi
    dsimp only
    rw [hfiles]
    exact ⟨hret, if_pos rfl, fun j hj => if_neg hj⟩
  close_refused fd hfd := by
    dsimp only
    rw [sysClose_of_notMem h hfd]
    exact ⟨rfl, rfl⟩
  stdin := h.stdin
  stdout := h.stdout
  mem_iff _ hi := h.mem_iff hi
  inUse_iff := h.inUse_iff
  read_dispatch := sysRead_ne_nullCall h
  write_dispatch := sysWrite_ne_nullCall h

/-! ## Sessions -/

/-- What a session keeps. -/
structure SessionInv (p : ℕ) (s : Session) : Prop where
  types : TypesKnown s.kernel.fs
  table : TableInv (s.kernel.pcb p).fileArray s.opened

/-- **A step keeps the invariant of a session.** -/
theorem SessionInv.step {s s' : Session} {e : SessionEvent} (h : SessionInv p s)
    (hstep : s.step p e = some s') : SessionInv p s' := by
  cases e with
  | call c =>
    simp only [Session.step] at hstep
    split at hstep
    · rename_i r hcall
      cases hstep
      refine ⟨?_, fileCall_tableInv h.types h.table hcall⟩
      have hboot := (fileCall_localTo hcall).volume.bootBlock
      unfold TypesKnown
      rw [hboot]
      exact h.types
    · cases hstep
  | key sc =>
    cases hstep
    refine ⟨?_, ?_⟩
    · rw [kbdIntrHandler_fs]
      exact h.types
    · rw [(kbdIntrHandler_sameProcesses s.kernel sc).pcb]
      exact h.table

/-- **A new process has a fresh table**, whatever its control block held. -/
theorem execute_started {st : Stale} {frame : Frame} {command : Option Bytes}
    {k' : Kernel} (h : execute k st frame command = .started k') :
    (k'.pcb (getPcb k'.esp0)).fileArray = freshFiles
      ∧ k'.fs.bootBlock = k.fs.bootBlock := by
  have hcase := execute_cases k st frame command
  rw [h] at hcase
  cases hcase with
  | @started s d hcommand hcap hlook hstays hload hpage =>
    refine ⟨?_, ?_⟩
    · rw [createPcb_esp0, createPcb_pcb_self]
    · show (loadProgram _ st d).2.fs.bootBlock = k.fs.bootBlock
      rw [(loadProgram_frame _ st d).2]
      rfl

/-- **The descriptor table refines the set of open descriptors.** In every
session of a process that `execute` has just created over a directory whose
entries have known types, what the calls do at any moment is given by the
set of descriptors opened and not yet closed. -/
theorem descriptorSpec_of_session {st : Stale} {frame : Frame}
    {command : Option Bytes} {k' : Kernel} {es : List SessionEvent} {s : Session}
    (htypes : TypesKnown k.fs) (hexec : execute k st frame command = .started k')
    (hrun : run (Session.step (getPcb k'.esp0)) ⟨k', ∅⟩ es = some s) :
    DescriptorSpec s.kernel (getPcb k'.esp0) s.opened := by
  obtain ⟨hfiles, hboot⟩ := execute_started hexec
  have hstart : SessionInv (getPcb k'.esp0) ⟨k', ∅⟩ := by
    refine ⟨?_, ?_⟩
    · unfold TypesKnown
      rw [hboot]
      exact htypes
    · rw [hfiles]
      exact tableInv_fresh
  have hend := run_induction (fun s e s' hs hstep => SessionInv.step hs hstep) hstart hrun
  exact hend.table.spec hend.types

/-- The first shell, after it has opened a file. -/
theorem descriptorSpec_shell :
    ∃ k' s, execute loadedKernel.kbdInit zeroStale .kbdInit (some (cstring "shell"))
        = .started k'
      ∧ run (Session.step (getPcb k'.esp0)) ⟨k', ∅⟩
          [.call (.openFile (some (cstring "shell")))] = some s
      ∧ DescriptorSpec s.kernel (getPcb k'.esp0) s.opened := by
  have hstarted : (execute loadedKernel.kbdInit zeroStale .kbdInit
      (some (cstring "shell"))).isStarted = true := by decide +kernel
  obtain ⟨k', hexec⟩ := ExecResult.exists_of_isStarted hstarted
  have htypes : TypesKnown loadedKernel.kbdInit.fs := by
    unfold TypesKnown
    decide
  refine ⟨k', _, hexec, rfl, ?_⟩
  exact descriptorSpec_of_session htypes hexec
    (show run _ _ [SessionEvent.call (.openFile (some (cstring "shell")))] = _ from rfl)

end KernelDesign
