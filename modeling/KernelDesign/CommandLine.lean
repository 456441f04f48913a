import KernelDesign.Lookup
import KernelDesign.Machine
import Mathlib.Data.Nat.Find

/-!
# Parsing a command

`execute` cuts a command in two with two loops over one index. The first
copies the file name up to a delimiter, the index is moved past the
delimiter whichever it was, and the second copies the arguments from there
up to the next delimiter.

The model of `execute` has the results of the loops as closed forms,
`exeFname` and `exeArgs`. Here are the loops themselves, with the bytes they
touch, and what follows from them: when the code stays inside the command
and its two arrays (`parse_memorySafe_iff`), and when the two results are
the first word and the rest of the line (`parses_line_iff`).
-/

namespace KernelDesign

open Words

/-! ## The loops -/

/-- **An access of the parser**: a byte of the command read, or a byte of
one of the two arrays written. The initialiser of `exe_args` is not one. -/
inductive ParseAccess
  | command (i : ℕ)
  | fname (i : ℕ)
  | args (j : ℕ)
  deriving DecidableEq

/-- **A copying loop of the parser where it stopped**: the indices into the
command and into the array, the array, and the accesses made. -/
structure CopyLoop where
  i : ℕ
  j : ℕ
  buf : Bytes
  log : List ParseAccess

/-- **A copying loop of the parser**: bytes of the command from `i` on are
stored from `j` on until there is a delimiter or `n` of them are copied. -/
def copyWord (store : ℕ → ParseAccess) (command buf : Bytes) (i j : ℕ) : ℕ → CopyLoop
  | 0 => ⟨i, j, buf, []⟩
  | n + 1 =>
    if isDelim (command i) then ⟨i, j, buf, [.command i]⟩
    else
      let r := copyWord store command (Function.update buf j (command i)) (i + 1) (j + 1) n
      { r with log := .command i :: store j :: r.log }

/-- The loop for `exe_fname`, over bytes that are not initialised. -/
def fnameLoop (stale command : Bytes) : CopyLoop := copyWord .fname command stale 0 0 128

/-- The loop for `exe_args` from index `i` on, over zeros. -/
def argsLoop (command : Bytes) (i : ℕ) : CopyLoop :=
  copyWord .args command (fun _ => 0) i 0 (128 - i)

/-- What the parser leaves in the two arrays. -/
structure Parsed where
  fname : Bytes
  args : Bytes
  log : List ParseAccess

/-- **The parser of `execute`**, on what the kernel stack held where
`exe_fname` is. The arguments are looked for if some process exists. -/
def parseCommand (activeProc : ℤ) (stale command : Bytes) : Parsed :=
  let w := fnameLoop stale command
  let i := w.i + 1
  let a := if activeProc ≠ -1 then argsLoop command i else ⟨i, 0, fun _ => 0, []⟩
  { fname := Function.update w.buf w.j 0
    args := Function.update a.buf a.j 0
    log := w.log ++ .fname w.j :: a.log ++ [.args a.j] }

/-- **What `execute` touches of the command and of its two arrays.** Over
the cap it returns before it has a look, and a null pointer is refused. -/
def executeAccesses (k : Kernel) (stale : Bytes) (command : Option Bytes) :
    List ParseAccess :=
  if 6 ≤ k.programs then []
  else match command with
    | none => []
    | some command => (parseCommand k.activeProc stale command).log

/-! ## What a loop does -/

section CopyWord

variable {store : ℕ → ParseAccess} {command : Bytes}

/-- **A loop stops at the first delimiter**, or at its bound. -/
theorem copyWord_i (store : ℕ → ParseAccess) (command buf : Bytes) (i j n : ℕ) :
    (copyWord store command buf i j n).i = Scan.scan (fun l => isDelim (command l)) i n := by
  induction n generalizing buf i j with
  | zero => rfl
  | succ n ih =>
    rw [copyWord, Scan.scan]
    split
    · rfl
    · exact ih _ (i + 1) (j + 1)

/-- The two indices move together. -/
theorem copyWord_j (store : ℕ → ParseAccess) (command buf : Bytes) (i j n : ℕ) :
    (copyWord store command buf i j n).j + i = j + (copyWord store command buf i j n).i := by
  induction n generalizing buf i j with
  | zero => rfl
  | succ n ih =>
    rw [copyWord]
    split
    · rfl
    · have h := ih (Function.update buf j (command i)) (i + 1) (j + 1)
      dsimp only
      omega

/-- **A loop copies the bytes in between** and leaves the others. -/
theorem copyWord_buf (buf : Bytes) (i j n l : ℕ) :
    (copyWord store command buf i j n).buf l
      = if j ≤ l ∧ l < (copyWord store command buf i j n).j then command (i + (l - j))
        else buf l := by
  induction n generalizing buf i j with
  | zero => exact (if_neg (show ¬ (j ≤ l ∧ l < j) by omega)).symm
  | succ n ih =>
    rw [copyWord]
    split
    · exact (if_neg (show ¬ (j ≤ l ∧ l < j) by omega)).symm
    · have hle := Scan.le_scan (fun l => isDelim (command l)) (i + 1) n
      have hj := copyWord_j store command (Function.update buf j (command i)) (i + 1) (j + 1) n
      rw [copyWord_i] at hj
      dsimp only
      rw [ih]
      by_cases hl : l = j
      · -- The byte stored first.
        rw [hl, if_neg (by omega), if_pos (by omega), Nat.sub_self, Function.update_self]
        rfl
      · rw [Function.update_of_ne hl]
        by_cases hin : j + 1 ≤ l ∧ l < (copyWord store command
            (Function.update buf j (command i)) (i + 1) (j + 1) n).j
        · rw [if_pos hin, if_pos (by omega), show i + 1 + (l - (j + 1)) = i + (l - j) by omega]
        · rw [if_neg hin, if_neg (by omega)]

/-- **The accesses of a loop**: the bytes copied, where they go, and the
delimiter if there is one. -/
theorem forall_copyWord_log {P : ParseAccess → Prop} (buf : Bytes) (i j n : ℕ) :
    (∀ a ∈ (copyWord store command buf i j n).log, P a)
      ↔ (∀ l, l < (copyWord store command buf i j n).i - i →
            P (.command (i + l)) ∧ P (store (j + l)))
        ∧ ((copyWord store command buf i j n).i < i + n →
            P (.command (copyWord store command buf i j n).i)) := by
  induction n generalizing buf i j with
  | zero => simp [copyWord]
  | succ n ih =>
    rw [copyWord]
    split
    · simp
    · have hle := Scan.le_scan (fun l => isDelim (command l)) (i + 1) n
      rw [← copyWord_i store command (Function.update buf j (command i)) (i + 1) (j + 1) n]
        at hle
      dsimp only
      rw [List.forall_mem_cons, List.forall_mem_cons, ih,
        show i + 1 + n = i + (n + 1) by omega]
      generalize (copyWord store command (Function.update buf j (command i)) (i + 1) (j + 1) n).i
        = stop at hle ⊢
      constructor
      · rintro ⟨hfirst, hstore, hrest, hend⟩
        refine ⟨fun l hl => ?_, hend⟩
        cases l with
        | zero => exact ⟨hfirst, hstore⟩
        | succ l =>
          have hcell := hrest l (by omega)
          rwa [show i + 1 + l = i + (l + 1) by omega, show j + 1 + l = j + (l + 1) by omega]
            at hcell
      · rintro ⟨hall, hend⟩
        refine ⟨(hall 0 (by omega)).1, (hall 0 (by omega)).2, fun l hl => ?_, hend⟩
        have hcell := hall (l + 1) (by omega)
        rwa [show i + (l + 1) = i + 1 + l by omega, show j + (l + 1) = j + 1 + l by omega]
          at hcell

end CopyWord

/-! ## The two arrays -/

section Parse

variable (activeProc : ℤ) (stale command : Bytes)

/-- The name ends where its loop stops. -/
theorem fnameLoop_i : (fnameLoop stale command).i = fnameLength command :=
  copyWord_i _ _ _ _ _ _

theorem fnameLoop_j : (fnameLoop stale command).j = fnameLength command := by
  have h := copyWord_j .fname command stale 0 0 128
  rw [fnameLoop, ← fnameLoop_i stale command, fnameLoop]
  omega

/-- **The name is in `exe_fname`**, up to its NUL. -/
theorem parseCommand_fname {l : ℕ} (hl : l ≤ fnameLength command) :
    (parseCommand activeProc stale command).fname l = exeFname command l := by
  show Function.update (fnameLoop stale command).buf (fnameLoop stale command).j 0 l = _
  rw [fnameLoop_j, exeFname]
  obtain hlt | rfl := Nat.lt_or_eq_of_le hl
  · rw [Function.update_of_ne (Nat.ne_of_lt hlt), if_pos hlt, fnameLoop, copyWord_buf,
      ← fnameLoop, fnameLoop_j, if_pos ⟨Nat.zero_le l, hlt⟩, Nat.zero_add, Nat.sub_zero]
  · rw [Function.update_self, if_neg (Nat.lt_irrefl _)]

/-- **The arguments are in `exe_args`**, over zeros. -/
theorem parseCommand_args :
    (parseCommand activeProc stale command).args = exeArgs activeProc command := by
  funext l
  unfold parseCommand exeArgs
  dsimp only
  rw [fnameLoop_i]
  split
  · -- The store of the NUL is over a zero.
    have hj := copyWord_j .args command (fun _ => 0)
      (fnameLength command + 1) 0 (128 - (fnameLength command + 1))
    rw [copyWord_i] at hj
    rw [argsLoop, Function.update_apply, copyWord_buf]
    by_cases hl : l < (copyWord .args command (fun _ => 0) (fnameLength command + 1) 0
        (128 - (fnameLength command + 1))).j
    · rw [if_neg (Nat.ne_of_lt hl), if_pos ⟨Nat.zero_le l, hl⟩, if_pos (by omega), Nat.sub_zero]
    · rw [if_neg (fun h : 0 ≤ l ∧ _ => hl h.2), ite_self, if_neg (by omega)]
  · rw [Function.update_apply, ite_self, if_neg (by omega)]

/-- A comparison does not look behind the NUL of its second string. -/
theorem strncmp_congr {s₁ s₂ s₂' : Bytes} {i n : ℕ}
    (h : ∀ l, (∀ m, m < l → s₂ (i + m) ≠ 0) → s₂' (i + l) = s₂ (i + l)) :
    strncmp s₁ s₂' i n = strncmp s₁ s₂ i n := by
  induction n generalizing i with
  | zero => rfl
  | succ n ih =>
    have hhere : s₂' i = s₂ i := h 0 (fun m hm => absurd hm (Nat.not_lt_zero m))
    rw [strncmp, strncmp, hhere]
    split
    · rfl
    · rename_i hgo
      rw [not_or, not_not] at hgo
      refine ih (fun l hl => ?_)
      have hnext := h (l + 1) (fun m hm => ?_)
      · rwa [show i + (l + 1) = i + 1 + l by omega] at hnext
      · cases m with
        | zero => exact hgo.1 ▸ hgo.2
        | succ m =>
          have hm' := hl m (Nat.lt_of_succ_lt_succ hm)
          rwa [show i + 1 + m = i + (m + 1) by omega] at hm'

/-- **The lookup sees the name alone**, not the bytes of `exe_fname` behind
it that are not initialised. -/
theorem readDentryByName_parsed (fs : FileSystem) (d : Option Dentry) :
    readDentryByName fs (some (parseCommand activeProc stale command).fname) d
      = readDentryByName fs (some (exeFname command)) d := by
  have hname : ∀ l, (∀ m, m < l → exeFname command (0 + m) ≠ 0) →
      (parseCommand activeProc stale command).fname (0 + l) = exeFname command (0 + l) := by
    intro l hl
    rw [Nat.zero_add]
    refine parseCommand_fname activeProc stale command (Nat.not_lt.mp (fun hgt => ?_))
    have hend := hl (fnameLength command) hgt
    rw [Nat.zero_add, exeFname, if_neg (Nat.lt_irrefl _)] at hend
    exact hend rfl
  have hloop : ∀ i n, readDentryByNameLoop fs (parseCommand activeProc stale command).fname d i n
      = readDentryByNameLoop fs (exeFname command) d i n := by
    intro i n
    induction n generalizing i with
    | zero => rfl
    | succ n ih => rw [readDentryByNameLoop, readDentryByNameLoop, strncmp_congr hname, ih]
  have hfirst := hname 0 (fun m hm => absurd hm (Nat.not_lt_zero m))
  rw [Nat.zero_add] at hfirst
  show (if _ then _ else _) = (if _ then _ else _)
  rw [hfirst, hloop]

end Parse

/-- **Where the loop for the arguments stops**, entered at `i`. -/
def argsStop (command : Bytes) (i : ℕ) : ℕ :=
  Scan.scan (fun l => isDelim (command l)) i (128 - i)

section ArgsStop

variable {command : Bytes} {i j : ℕ}

theorem argsLoop_i (command : Bytes) (i : ℕ) : (argsLoop command i).i = argsStop command i :=
  copyWord_i _ _ _ _ _ _

theorem argsLoop_j (command : Bytes) (i : ℕ) :
    (argsLoop command i).j + i = argsStop command i := by
  have h := copyWord_j .args command (fun _ => 0) i 0 (128 - i)
  rw [Nat.zero_add] at h
  exact h.trans (argsLoop_i command i)

theorem le_argsStop (command : Bytes) (i : ℕ) : i ≤ argsStop command i := Scan.le_scan _ _ _

theorem argsStop_le (command : Bytes) (hi : i ≤ 128) : argsStop command i ≤ 128 := by
  have h := Scan.scan_le (fun l => isDelim (command l)) i (128 - i)
  rwa [Nat.add_sub_cancel' hi] at h

/-- No byte that is copied is a delimiter. -/
theorem isDelim_of_lt_argsStop (hij : i ≤ j) (hj : j < argsStop command i) :
    isDelim (command j) = false := Scan.eq_false_of_lt_scan hij hj

/-- The loop does not get past a delimiter. -/
theorem argsStop_le_of_isDelim (hij : i ≤ j) (hj : isDelim (command j) = true) :
    argsStop command i ≤ j := by
  refine Nat.not_lt.mp (fun hlt => ?_)
  rw [isDelim_of_lt_argsStop hij hlt] at hj
  exact absurd hj Bool.false_ne_true

/-- It stops at a delimiter, or behind the 128 bytes. -/
theorem isDelim_argsStop (h : argsStop command i < 128) :
    isDelim (command (argsStop command i)) = true := by
  have hle := le_argsStop command i
  refine Scan.eq_true_of_scan_lt (p := fun l => isDelim (command l)) ?_
  rw [Nat.add_sub_cancel' (by omega)]
  exact h

end ArgsStop

/-! ## Memory safety -/

/-- **The first delimiter** is at `f`. -/
structure FirstDelim (command : Bytes) (f : ℕ) : Prop where
  before : ∀ l, l < f → isDelim (command l) = false
  stop : isDelim (command f) = true

/-- Every string has a first delimiter, its NUL at the latest. -/
theorem CString.exists_firstDelim (s : CString) : ∃ f, f ≤ s.length ∧ FirstDelim s.bytes f := by
  have hnul : isDelim (s.bytes s.length) = true := by
    rw [s.nul]
    rfl
  have hex : ∃ f, isDelim (s.bytes f) = true := ⟨s.length, hnul⟩
  refine ⟨Nat.find hex, Nat.find_min' hex hnul, fun l hl => ?_, Nat.find_spec hex⟩
  exact (Bool.not_eq_true _).mp (Nat.find_min hex hl)

/-- The loop for the name stops there, if it gets that far. -/
theorem FirstDelim.fnameLength_eq {command : Bytes} {f : ℕ} (h : FirstDelim command f) :
    fnameLength command = min f 128 := by
  obtain hlt | hge := Nat.lt_or_ge f 128
  · rw [Nat.min_eq_left (Nat.le_of_lt hlt)]
    exact Scan.scan_eq_of (Nat.zero_le f) (by omega) (fun l _ hl => h.before l hl) h.stop
  · rw [Nat.min_eq_right hge]
    exact Scan.scan_eq_bound (fun l _ hl => h.before l (by omega))

/-- **An access inside its object**: not behind the NUL of the command, and
below 128 in either array. -/
def ParseAccess.InBounds (s : CString) : ParseAccess → Prop
  | .command i => i ≤ s.length
  | .fname i => i < 128
  | .args j => j < 128

/-- **The commands that are parsed safely**: the first word is shorter than
the array, and the index moved past its delimiter is not moved past the NUL
of the command, or goes nowhere from there. -/
def ParsesSafely (activeProc : ℤ) (s : CString) : Prop :=
  ∃ f, FirstDelim s.bytes f ∧ f < 128 ∧ (activeProc = -1 ∨ f ≠ s.length ∨ f = 127)

section Safety

variable {s : CString} {f : ℕ}

/-- A first delimiter is unique. -/
theorem FirstDelim.unique {command : Bytes} {g : ℕ} (h : FirstDelim command f)
    (h' : FirstDelim command g) : f = g := by
  refine Nat.le_antisymm (Nat.not_lt.mp (fun hlt => ?_)) (Nat.not_lt.mp (fun hlt => ?_))
  · exact absurd h'.stop (by simp [h.before g hlt])
  · exact absurd h.stop (by simp [h'.before f hlt])

/-- **The loop for the name is safe** on every string. -/
theorem fnameLoop_safe (stale : Bytes) (h : FirstDelim s.bytes f) (hle : f ≤ s.length) :
    ∀ a ∈ (fnameLoop stale s.bytes).log, a.InBounds s := by
  rw [fnameLoop, forall_copyWord_log, ← fnameLoop, fnameLoop_i, h.fnameLength_eq]
  refine ⟨fun l hl => ⟨?_, ?_⟩, fun _ => ?_⟩
  · show 0 + l ≤ s.length
    omega
  · show 0 + l < 128
    omega
  · show min f 128 ≤ s.length
    omega

/-- The arguments fit, with their NUL. -/
theorem argsLoop_j_lt (command : Bytes) {i : ℕ} (hi : 0 < i) (hi' : i ≤ 128) :
    (argsLoop command i).j < 128 := by
  have hj := argsLoop_j command i
  have hle := argsStop_le command hi'
  omega

/-- **When the loop for the arguments is safe**: behind a space or a newline,
or where the command may not be longer. -/
theorem argsLoop_safe_iff (hle : f ≤ s.length) (hf : f < 128) :
    (∀ a ∈ (argsLoop s.bytes (f + 1)).log, a.InBounds s) ↔ f ≠ s.length ∨ f = 127 := by
  have hge := le_argsStop s.bytes (f + 1)
  have hmax := argsStop_le s.bytes (show f + 1 ≤ 128 from hf)
  rw [argsLoop, forall_copyWord_log, ← argsLoop, argsLoop_i, Nat.add_sub_cancel' (by omega)]
  by_cases hend : f = s.length
  · -- The index is past the NUL of the command.
    constructor
    · rintro ⟨hcopied, hstop⟩
      refine Or.inr (by_contra (fun hne => ?_))
      obtain hlt | heq := Nat.lt_or_eq_of_le hge
      · have hread : f + 1 + 0 ≤ s.length := (hcopied 0 (by omega)).1
        omega
      · have hread : argsStop s.bytes (f + 1) ≤ s.length := hstop (by omega)
        omega
    · intro hlast
      have hf127 : f = 127 := hlast.resolve_left (fun hne => hne hend)
      refine ⟨fun l hl => ?_, fun hl => ?_⟩
      · omega
      · omega
  · have hnul : argsStop s.bytes (f + 1) ≤ s.length := by
      refine argsStop_le_of_isDelim (by omega) ?_
      rw [s.nul]
      rfl
    refine iff_of_true ⟨fun l hl => ⟨?_, ?_⟩, fun _ => hnul⟩ (Or.inl hend)
    · show f + 1 + l ≤ s.length
      omega
    · show 0 + l < 128
      omega

/-- **When a command is parsed safely**: over the cap, where nothing is
parsed, or if its first word ends before the array does, at another byte
than the NUL of the command unless that is at index 127 or no process
exists. -/
theorem parse_memorySafe_iff (k : Kernel) (stale : Bytes) (s : CString) :
    (∀ a ∈ executeAccesses k stale (some s.bytes), a.InBounds s)
      ↔ 6 ≤ k.programs ∨ ParsesSafely k.activeProc s := by
  unfold executeAccesses
  by_cases hcap : 6 ≤ k.programs
  · rw [if_pos hcap]
    exact iff_of_true (fun a ha => absurd ha List.not_mem_nil) (Or.inl hcap)
  · obtain ⟨f, hle, hf⟩ := s.exists_firstDelim
    have hword : ParsesSafely k.activeProc s
        ↔ f < 128 ∧ (k.activeProc = -1 ∨ f ≠ s.length ∨ f = 127) := by
      constructor
      · rintro ⟨g, hg, hsafe⟩
        rwa [hf.unique hg]
      · exact fun hsafe => ⟨f, hf, hsafe⟩
    rw [if_neg hcap, or_iff_right hcap, hword]
    dsimp only [parseCommand]
    rw [List.append_assoc, List.forall_mem_append, List.cons_append, List.forall_mem_cons,
      List.forall_mem_append, List.forall_mem_singleton, fnameLoop_i, fnameLoop_j,
      hf.fnameLength_eq, and_iff_right (fnameLoop_safe stale hf hle)]
    show min f 128 < 128 ∧ _ ↔ _
    by_cases hshort : f < 128
    · rw [Nat.min_eq_left (Nat.le_of_lt hshort), and_iff_right hshort, and_iff_right hshort]
      split
      · rename_i hactive
        rw [argsLoop_safe_iff hle hshort, or_iff_right hactive]
        exact and_iff_left (argsLoop_j_lt s.bytes (Nat.succ_pos f) hshort)
      · rename_i hactive
        refine iff_of_true ⟨fun a ha => absurd ha List.not_mem_nil, ?_⟩
          (Or.inl (not_not.mp hactive))
        exact Nat.zero_lt_succ 127
    · refine iff_of_false (fun h => ?_) (fun h => hshort h.1)
      have hlt := h.1
      omega

end Safety

/-- The command `ls`. -/
def lsCommand : CString where
  bytes := cstring "ls"
  length := 2
  ne_zero := by decide
  nul := rfl

/-- **The parser reads behind the NUL** of `ls`, in the first shell. -/
theorem parse_reads_past_nul :
    ∃ m, Transition.run Machine.step (Machine.start loadedKernel) [.boot zeroStale] = some m
      ∧ ParseAccess.command 3 ∈ executeAccesses m.kernel (fun _ => 0) (some lsCommand.bytes)
      ∧ ¬ (ParseAccess.command 3).InBounds lsCommand :=
  ⟨(Machine.start loadedKernel).bootStep zeroStale, rfl, by decide +kernel,
    by simp [ParseAccess.InBounds, lsCommand]⟩

/-! ## The grammar -/

/-- **The line of a command** ends at its first newline or NUL, index `e`. -/
structure EndsLine (command : Bytes) (e : ℕ) : Prop where
  before : ∀ l, l < e → command l ≠ 0x0A ∧ command l ≠ 0
  stop : command e = 0x0A ∨ command e = 0

/-- **The first word** of a line. -/
def commandName (line : List UInt8) : List UInt8 := line.takeWhile (· != 0x20)

/-- **The rest of a line**, behind its first space. -/
def commandArgs (line : List UInt8) : List UInt8 := line.drop ((commandName line).length + 1)

/-- **A command is parsed as its line says**: `exe_fname` is the first word
and `exe_args` the rest. -/
structure ParsesLine (activeProc : ℤ) (command : Bytes) (line : List UInt8) : Prop where
  name : (exeFname command).first (strlen (exeFname command) 128) = commandName line
  args : (exeArgs activeProc command).first (strlen (exeArgs activeProc command) 128)
    = commandArgs line

section Grammar

variable {command : Bytes} {e : ℕ}

/-- The index of the first space of a line, or its end. -/
def firstSpace (command : Bytes) (e : ℕ) : ℕ := Scan.scan (fun l => command l == 0x20) 0 e

theorem firstSpace_le (command : Bytes) (e : ℕ) : firstSpace command e ≤ e := by
  simpa [firstSpace] using Scan.scan_le (fun l => command l == 0x20) 0 e

/-- The first word ends at the first space. -/
theorem commandName_first (command : Bytes) (e : ℕ) :
    commandName (command.first e) = command.first (firstSpace command e) :=
  Scan.takeWhile_first command (· == 0x20) e

/-- What is behind the first space. -/
theorem commandArgs_first (command : Bytes) (e : ℕ) :
    commandArgs (command.first e)
      = (command.drop (firstSpace command e + 1)).first (e - (firstSpace command e + 1)) := by
  rw [commandArgs, commandName_first, Buffer.length_first, Buffer.drop_first]

/-- A line has a space if its first space is inside. -/
theorem space_mem_iff (command : Bytes) (e : ℕ) :
    0x20 ∈ command.first e ↔ firstSpace command e < e := by
  constructor
  · intro hmem
    obtain ⟨l, hl, hspace⟩ := List.mem_map.mp hmem
    have hle : ¬ l < firstSpace command e := fun hlt => by
      have hno := Scan.eq_false_of_lt_scan (Nat.zero_le l) hlt
      rw [hspace] at hno
      exact absurd hno (by decide)
    have hlt := List.mem_range.mp hl
    omega
  · intro hlt
    have hspace := Scan.eq_true_of_scan_lt (p := fun l => command l == 0x20) (i := 0) (n := e)
      (by simpa [firstSpace] using hlt)
    exact List.mem_map.mpr ⟨firstSpace command e, List.mem_range.mpr hlt, eq_of_beq hspace⟩

/-- A word whose text is that of `src` up to index `n`. -/
theorem text_of_cells {b src : Bytes} {n : ℕ} (hn : n < 128)
    (hb : ∀ j, b j = if j < n then src j else 0) (hsrc : ∀ j, j < n → src j ≠ 0) :
    b.first (strlen b 128) = src.first n := by
  have hlen : strlen b 128 = n := by
    refine Scan.scan_eq_of (Nat.zero_le n) (by omega) (fun j _ hj => ?_) ?_
    · rw [hb, if_pos hj]
      exact beq_eq_false_iff_ne.mpr (hsrc j hj)
    · rw [hb, if_neg (Nat.lt_irrefl n)]
      rfl
  rw [hlen]
  exact Buffer.first_congr (fun j hj => by rw [hb, if_pos hj])

/-- No delimiter is NUL. -/
theorem ne_zero_of_isDelim {c : UInt8} (h : isDelim c = false) : c ≠ 0 := by
  rintro rfl
  exact absurd h (by decide)

variable (h : EndsLine command e) (he : e < 128)

include h

/-- In a line the only delimiter is the space. -/
theorem EndsLine.isDelim_eq {l : ℕ} (hl : l < e) :
    isDelim (command l) = (command l == 0x20) := by
  have hnl := beq_eq_false_iff_ne.mpr (h.before l hl).1
  have hnul := beq_eq_false_iff_ne.mpr (h.before l hl).2
  rw [isDelim, hnl, hnul, Bool.false_or, Bool.or_false]

theorem EndsLine.isDelim_end : isDelim (command e) = true := by
  rcases h.stop with heq | heq
  · rw [heq]
    rfl
  · rw [heq]
    rfl

/-- **The first delimiter** of a command is the first space of its line, or
its end. -/
theorem EndsLine.firstDelim : FirstDelim command (firstSpace command e) where
  before l hl := by
    have hle := firstSpace_le command e
    rw [h.isDelim_eq (Nat.lt_of_lt_of_le hl hle)]
    exact Scan.eq_false_of_lt_scan (Nat.zero_le l) hl
  stop := by
    obtain hlt | heq := Nat.lt_or_eq_of_le (firstSpace_le command e)
    · rw [h.isDelim_eq hlt]
      exact Scan.eq_true_of_scan_lt (p := fun l => command l == 0x20)
        (by simpa [firstSpace] using hlt)
    · rw [heq]
      exact h.isDelim_end

include he

/-- The loop for the name stops at the first space, or at the end. -/
theorem EndsLine.fnameLength_eq : fnameLength command = firstSpace command e := by
  have hle := firstSpace_le command e
  rw [h.firstDelim.fnameLength_eq]
  exact Nat.min_eq_left (Nat.le_trans hle (Nat.le_of_lt he))

/-- **The name is always the first word.** -/
theorem EndsLine.name_eq :
    (exeFname command).first (strlen (exeFname command) 128)
      = commandName (command.first e) := by
  have hle := firstSpace_le command e
  have hlen := h.fnameLength_eq he
  rw [commandName_first]
  refine text_of_cells (by omega) (fun j => by rw [exeFname, hlen]) (fun j hj => ?_)
  exact ne_zero_of_isDelim (h.firstDelim.before j hj)

/-- The arguments are what the second loop walks over. -/
theorem EndsLine.args_eq {activeProc : ℤ} (hactive : activeProc ≠ -1) :
    (exeArgs activeProc command).first (strlen (exeArgs activeProc command) 128)
      = (command.drop (firstSpace command e + 1)).first
          (argsStop command (firstSpace command e + 1) - (firstSpace command e + 1)) := by
  have hle := firstSpace_le command e
  have hlen := h.fnameLength_eq he
  have hmax := argsStop_le command (show firstSpace command e + 1 ≤ 128 by omega)
  refine text_of_cells (by omega) (fun j => ?_) (fun j hj => ?_)
  · unfold exeArgs
    rw [hlen, if_pos hactive]
    rfl
  · have hcopied : firstSpace command e + 1 + j < argsStop command (firstSpace command e + 1) := by
      omega
    have hplain : isDelim (command (firstSpace command e + 1 + j)) = false :=
      isDelim_of_lt_argsStop (Nat.le_add_right _ j) hcopied
    exact ne_zero_of_isDelim hplain

/-- **A line with a space** has its arguments if it has no other space. -/
theorem EndsLine.args_eq_iff_of_space (hspace : firstSpace command e < e) :
    argsStop command (firstSpace command e + 1) = e
      ↔ 0x20 ∉ commandArgs (command.first e) := by
  have hend := argsStop_le_of_isDelim (Nat.succ_le_of_lt hspace) h.isDelim_end
  rw [commandArgs_first]
  constructor
  · intro hstop hmem
    obtain ⟨l, hl, hsp⟩ := List.mem_map.mp hmem
    have hl' := List.mem_range.mp hl
    have hno : isDelim (command (firstSpace command e + 1 + l)) = false :=
      isDelim_of_lt_argsStop (Nat.le_add_right (firstSpace command e + 1) l) (by omega)
    rw [Buffer.drop_apply] at hsp
    rw [hsp] at hno
    exact absurd hno (by decide)
  · intro hno
    refine Nat.le_antisymm hend (Nat.not_lt.mp (fun hlt => hno ?_))
    -- The delimiter it stops at is a space.
    have hdelim := isDelim_argsStop (i := firstSpace command e + 1) (Nat.lt_trans hlt he)
    rw [h.isDelim_eq hlt] at hdelim
    obtain ⟨j, hj⟩ := Nat.exists_eq_add_of_le (le_argsStop command (firstSpace command e + 1))
    rw [hj] at hdelim hlt
    exact List.mem_map.mpr ⟨j, List.mem_range.mpr (by omega), eq_of_beq hdelim⟩

omit h in
/-- **A line without a space** has no arguments if the parser does not find
any behind its end. -/
theorem argsStop_succ_iff :
    argsStop command (e + 1) = e + 1 ↔ e = 127 ∨ isDelim (command (e + 1)) = true := by
  have hge := le_argsStop command (e + 1)
  have hmax := argsStop_le command (show e + 1 ≤ 128 from he)
  constructor
  · intro hstop
    refine or_iff_not_imp_left.mpr (fun hne => ?_)
    have hdelim : isDelim (command (argsStop command (e + 1))) = true :=
      isDelim_argsStop (by omega)
    rwa [hstop] at hdelim
  · rintro (hlast | hdelim)
    · omega
    · exact Nat.le_antisymm (argsStop_le_of_isDelim (le_refl _) hdelim) hge

/-- **When the arguments are the rest of the line**: a line with a space has
no other one, and a line without one is followed by a delimiter, or by the
end of the 128 bytes. -/
theorem EndsLine.args_eq_iff {activeProc : ℤ} (hactive : activeProc ≠ -1) :
    (exeArgs activeProc command).first (strlen (exeArgs activeProc command) 128)
        = commandArgs (command.first e)
      ↔ if 0x20 ∈ command.first e then 0x20 ∉ commandArgs (command.first e)
        else e = 127 ∨ isDelim (command (e + 1)) = true := by
  have hge := le_argsStop command (firstSpace command e + 1)
  have hle := firstSpace_le command e
  -- Both are bytes from behind the first space on, so their lengths decide.
  have hlength : (exeArgs activeProc command).first (strlen (exeArgs activeProc command) 128)
        = commandArgs (command.first e)
      ↔ argsStop command (firstSpace command e + 1) - (firstSpace command e + 1)
          = e - (firstSpace command e + 1) := by
    rw [h.args_eq he hactive, commandArgs_first]
    constructor
    · intro heq
      simpa using congrArg List.length heq
    · intro heq
      rw [heq]
  rw [hlength]
  split
  · rename_i hspace
    have hlt := (space_mem_iff command e).mp hspace
    rw [← h.args_eq_iff_of_space he hlt]
    omega
  · rename_i hspace
    have hlast : firstSpace command e = e :=
      Nat.le_antisymm hle
        (Nat.not_lt.mp (fun hlt => hspace ((space_mem_iff command e).mpr hlt)))
    rw [hlast] at hge ⊢
    rw [← argsStop_succ_iff he]
    omega

end Grammar

/-- **When a command is parsed as its line says**, for a line that ends in
the first 128 bytes and while some process exists: exactly when a line with
a space has no other one behind it, and a line without one is followed by
another delimiter or ends at index 127. -/
theorem parses_line_iff {command : Bytes} {e : ℕ} (h : EndsLine command e) (he : e < 128)
    {activeProc : ℤ} (hactive : activeProc ≠ -1) :
    ParsesLine activeProc command (command.first e)
      ↔ if 0x20 ∈ command.first e then 0x20 ∉ commandArgs (command.first e)
        else e = 127 ∨ isDelim (command (e + 1)) = true := by
  rw [← h.args_eq_iff he hactive]
  exact ⟨fun hp => hp.args, fun hargs => ⟨h.name_eq he, hargs⟩⟩

/-- `grep abc` is parsed as its line says. -/
theorem parses_line_one_argument :
    ParsesLine 0 (cstring "grep abc") ((cstring "grep abc").first 8) :=
  (parses_line_iff (e := 8) ⟨by decide, Or.inr rfl⟩ (by decide) (by decide)).mpr
    (by decide)

/-- **A second argument word is lost**: `grep a b` is called with `a`. -/
theorem parses_line_two_arguments :
    EndsLine (cstring "grep a b") 8
      ∧ ¬ ParsesLine 0 (cstring "grep a b") ((cstring "grep a b").first 8)
      ∧ (exeArgs 0 (cstring "grep a b")).first (strlen (exeArgs 0 (cstring "grep a b")) 128)
          = ascii "a"
      ∧ commandArgs ((cstring "grep a b").first 8) = ascii "a b" := by
  have hargs : (exeArgs 0 (cstring "grep a b")).first
      (strlen (exeArgs 0 (cstring "grep a b")) 128) = ascii "a" := by decide +kernel
  refine ⟨⟨by decide, Or.inr rfl⟩, fun hp => ?_, hargs, by decide⟩
  exact absurd (hargs.symm.trans hp.args) (by decide)

end KernelDesign
