import KernelDesign.Accounting

/-!
# Arguments

`execute` cuts the second word out of the command and stores it in the
control block of the new process, where `getargs` finds it through the
stack pointer. The word survives because no one writes the argument of a
block but the `execute` that fills it in, and because while a process lives
every program started later has a block of its own.

The second half is where a failed program load does harm: it leaves
`active_proc` one too high, the next program that halts hands the stack of
the wrong process to the one that goes on, and that one's `getargs` looks
into a block that is not its own.
-/

namespace KernelDesign

open Kernel Transition Words

/-! ## The command -/

/-- **A command with an argument**: a first word `name`, one space, the word
`w`, and a delimiter, within the first 128 bytes. -/
structure ArgCommand (command : Bytes) (name w : List UInt8) : Prop where
  name_word : ∀ c ∈ name, isDelim c = false
  arg_word : ∀ c ∈ w, isDelim c = false
  arg_ne : w ≠ []
  text : command.first (name.length + 1 + w.length) = name ++ 0x20 :: w
  ends : isDelim (command (name.length + 1 + w.length)) = true
  short : name.length + 1 + w.length < 128

/-- **The bytes hold the argument**, and a NUL after it. -/
structure HoldsArg (arg : Bytes) (w : List UInt8) : Prop where
  first : arg.first w.length = w
  nul : arg w.length = 0

/-- No byte of a word is NUL. -/
theorem ne_zero_of_word {w : List UInt8} (hw : ∀ c ∈ w, isDelim c = false) :
    ∀ c ∈ w, c ≠ 0 := by
  rintro c hc rfl
  exact absurd (hw 0 hc) (by decide)

/-- Its length is that of the word. -/
theorem HoldsArg.strlen_eq {arg : Bytes} {w : List UInt8} (h : HoldsArg arg w)
    (hw : ∀ c ∈ w, isDelim c = false) {size : ℕ} (hsize : w.length < size) :
    strlen arg size = w.length := by
  refine Scan.scan_eq_of (Nat.zero_le _) (by omega) (fun j _ hj => ?_) ?_
  · have hmem : arg j ∈ w := h.first ▸ Buffer.mem_first hj
    exact beq_eq_false_iff_ne.mpr (ne_zero_of_word hw _ hmem)
  · exact beq_iff_eq.mpr h.nul

namespace ArgCommand

variable {command : Bytes} {name w : List UInt8} (h : ArgCommand command name w)

include h

/-- The bytes of the command, by their place in the text. -/
theorem byte_eq {j : ℕ} (hj : j < name.length + 1 + w.length) :
    some (command j) = (name ++ 0x20 :: w)[j]? := by
  rw [← h.text, Buffer.first, List.getElem?_map, List.getElem?_range hj]
  rfl

/-- **The scan for the file name stops at the space.** -/
theorem fnameLength_eq : fnameLength command = name.length := by
  have hshort := h.short
  refine Scan.scan_eq_of (Nat.zero_le _) (by omega) (fun j _ hj => ?_) ?_
  · have hbyte := h.byte_eq (j := j) (by omega)
    rw [List.getElem?_append_left hj, List.getElem?_eq_getElem hj] at hbyte
    rw [Option.some.inj hbyte]
    exact h.name_word _ (List.getElem_mem hj)
  · have hbyte := h.byte_eq (j := name.length) (by omega)
    rw [List.getElem?_append_right (le_refl _), Nat.sub_self, List.getElem?_cons_zero]
      at hbyte
    rw [Option.some.inj hbyte]
    decide

/-- The bytes after the space are the argument. -/
theorem byte_arg {j : ℕ} (hj : j < w.length) :
    command (name.length + 1 + j) = w[j] := by
  have hbyte := h.byte_eq (j := name.length + 1 + j) (by omega)
  have hsub : name.length + 1 + j - name.length = j + 1 := by omega
  rw [List.getElem?_append_right (by omega), hsub, List.getElem?_cons_succ,
    List.getElem?_eq_getElem hj] at hbyte
  exact Option.some.inj hbyte

/-- **`exe_args` is the argument**, if some process exists. -/
theorem holdsArg_exeArgs {activeProc : ℤ} (hactive : activeProc ≠ -1) :
    HoldsArg (exeArgs activeProc command) w := by
  have hshort := h.short
  have hstop : Scan.scan (fun i => isDelim (command i)) (name.length + 1)
      (128 - (name.length + 1)) = name.length + 1 + w.length := by
    refine Scan.scan_eq_of (by omega) (by omega) (fun j hlo hj => ?_) h.ends
    obtain ⟨i, rfl⟩ := Nat.exists_eq_add_of_le hlo
    have hi : i < w.length := by omega
    rw [h.byte_arg hi]
    exact h.arg_word _ (List.getElem_mem hi)
  have hcells : ∀ j, exeArgs activeProc command j
      = if j < w.length then command (name.length + 1 + j) else 0 := fun j => by
    unfold exeArgs
    rw [h.fnameLength_eq, if_pos hactive, hstop, Nat.add_sub_cancel_left]
  constructor
  · refine List.ext_getElem (Buffer.length_first _ _) (fun j hj hj' => ?_)
    simp only [Buffer.first, List.getElem_map, List.getElem_range]
    rw [hcells, if_pos hj', h.byte_arg hj']
  · rw [hcells, if_neg (Nat.lt_irrefl _)]

end ArgCommand

/-- **The argument in the block of the new process.** -/
theorem HoldsArg.stored {args old : Bytes} {w : List UInt8} (h : HoldsArg args w)
    (hw : w.length < 1024) : HoldsArg ((old.fill 0 1024).copy 0 args w.length) w where
  first := by
    have hsame : Buffer.first ((old.fill 0 1024).copy 0 args w.length) w.length
        = args.first w.length := Buffer.first_congr (fun j hj => by
      rw [Buffer.fill_copy_apply, if_pos hj])
    rw [hsame, h.first]
  nul := by
    rw [Buffer.fill_copy_apply, if_neg (Nat.lt_irrefl _), if_pos hw]

/-- **A program that is started has its argument.** -/
theorem holdsArg_of_execute {k k' : Kernel} {st : Stale} {frame : Frame} {command : Bytes}
    {name w : List UInt8} (h : ArgCommand command name w) (hactive : k.activeProc ≠ -1)
    (hexec : execute k st frame (some command) = .started k') :
    HoldsArg (k'.pcb (kstackToPcb (k.activeProc + 1))).arg w := by
  have hargs := h.holdsArg_exeArgs hactive
  have hshort := h.short
  have hlen : strlen (exeArgs k.activeProc command) 128 = w.length :=
    hargs.strlen_eq h.arg_word (by omega)
  have hcase := execute_cases k st frame (some command)
  rw [hexec] at hcase
  cases hcase with
  | @started s d hcommand hcap hlook hstays hload hpage =>
    cases hcommand
    have hnum : (k.loadNext st d).2.activeProc = k.activeProc + 1 :=
      (loadProgram_sameProcesses _ st d).activeProc
    rw [← hnum, createPcb_pcb_self]
    dsimp only
    rw [hlen]
    exact hargs.stored (by omega)

/-! ## `getargs` -/

/-- **What `getargs` should do** for the argument `w`: it succeeds exactly
when the argument and its NUL fit, and then puts them into the buffer, and
otherwise it returns -1 and leaves the buffer alone. -/
structure GetsArg (w : List UInt8) (b : Bytes) (nbytes : ℤ) (r : SysResult) : Prop where
  ret_iff : r.ret = 0 ↔ (w.length : ℤ) + 1 ≤ nbytes
  fits : (w.length : ℤ) + 1 ≤ nbytes → ∃ b', r.buf = some b' ∧ HoldsArg b' w
  short : nbytes < (w.length : ℤ) + 1 → r.ret = -1 ∧ r.buf = some b

/-- **`getargs` of a block that holds the argument.** -/
theorem getsArg_of_holdsArg {k : Kernel} {pcb : ℕ} {w : List UInt8}
    (h : HoldsArg (k.pcb pcb).arg w) (hw : ∀ c ∈ w, isDelim c = false) (hne : w ≠ [])
    (hlen : w.length < 1024) (b : Bytes) {nbytes : ℤ} (hnbytes : 0 ≤ nbytes) :
    GetsArg w b nbytes (sysGetargs k pcb (some b) nbytes) := by
  have hstrlen := h.strlen_eq hw hlen
  have hpos := List.length_pos_iff.mpr hne
  unfold sysGetargs
  dsimp only
  rw [hstrlen]
  by_cases hfits : (w.length : ℤ) + 1 ≤ nbytes
  · rw [if_neg (by omega)]
    refine ⟨iff_of_true rfl hfits, fun _ => ⟨_, rfl, h.stored hlen⟩, fun hshort => ?_⟩
    omega
  · rw [if_pos (by omega)]
    exact ⟨iff_of_false (show ¬ (-1 : ℤ) = 0 by decide) hfits, fun h' => absurd h' hfits,
      fun _ => ⟨rfl, rfl⟩⟩

/-! ## What keeps an argument -/

/-- A change of a block that leaves its argument. -/
theorem setPcb_arg (k : Kernel) (pcb : ℕ) {f : Pcb → Pcb} (hf : ∀ p, (f p).arg = p.arg)
    (a : ℕ) : ((k.setPcb pcb f).pcb a).arg = (k.pcb a).arg := by
  by_cases ha : a = pcb
  · rw [ha, setPcb_pcb_self, hf]
  · rw [setPcb_pcb_of_ne _ _ ha]

theorem sysOpen_arg (k : Kernel) (pcb : ℕ) (filename : Option Bytes) (a : ℕ) :
    ((sysOpen k pcb filename).2.pcb a).arg = (k.pcb a).arg := by
  unfold sysOpen
  dsimp only
  split
  · rfl
  · split
    · rfl
    · dsimp only
      refine setPcb_arg k pcb ?_ a
      intro p
      split
      · rfl
      · rfl

theorem sysClose_arg (k : Kernel) (pcb : ℕ) (fd : ℤ) (a : ℕ) :
    ((sysClose k pcb fd).2.pcb a).arg = (k.pcb a).arg := by
  unfold sysClose
  split
  · rfl
  · split
    · rfl
    · dsimp only
      refine setPcb_arg k pcb ?_ a
      exact fun _ => rfl

theorem sysRead_arg {k : Kernel} {pcb : ℕ} {stack : ℕ → ℤ} {fd : ℤ} {buf : Option Bytes}
    {nbytes : ℤ} {r : SysResult} (h : sysRead k pcb stack fd buf nbytes = .ok r) (a : ℕ) :
    (r.kernel.pcb a).arg = (k.pcb a).arg := by
  unfold sysRead at h
  cases buf with
  | none =>
    cases h
    rfl
  | some b =>
    dsimp only at h
    split at h
    · cases h
      rfl
    · split at h
      · cases h
        rfl
      · -- One case for each jump table.
        split at h
        · cases h
          unfold fsFileRead
          dsimp only
          refine setPcb_arg k pcb ?_ a
          exact fun _ => rfl
        · cases h
          rfl
        · cases h
          rfl
        · obtain hk | hk := termRead_kernel h
          · rw [hk]
          · rw [hk]
            rfl
        · cases h
          rfl
        · cases h

/-- **No descriptor call changes an argument.** -/
theorem fileCall_arg {k : Kernel} {pcb : ℕ} {c : FileCall} {r : ℤ × Kernel}
    (h : k.fileCall pcb c = .ok r) (a : ℕ) : (r.2.pcb a).arg = (k.pcb a).arg := by
  cases c with
  | openFile filename =>
    cases h
    exact sysOpen_arg k pcb filename a
  | closeFile fd =>
    cases h
    exact sysClose_arg k pcb fd a
  | readFile stack fd buf nbytes =>
    simp only [fileCall] at h
    cases hread : sysRead k pcb stack fd buf nbytes with
    | error t =>
      rw [hread] at h
      cases h
    | ok s =>
      rw [hread] at h
      cases h
      exact sysRead_arg hread a
  | writeFile fd buf nbytes =>
    simp only [fileCall] at h
    cases hwrite : sysWrite k pcb fd buf nbytes with
    | error t =>
      rw [hwrite] at h
      cases h
    | ok s =>
      rw [hwrite] at h
      cases h
      obtain ⟨c, reg, hk⟩ := sysWrite_kernel hwrite
      show (s.kernel.pcb a).arg = _
      rw [hk]
  | getargs buf nbytes =>
    cases h
    rw [sysGetargs_kernel]

/-! ## Runs -/

namespace Machine

/-- **An event in which process `n` does not halt.** -/
def stillRuns (n : ℤ) (m : Machine) : Event → Bool
  | .halt _ _ => m.mode ≠ .user n
  | _ => true

/-- **Process `n` lives on with its argument**: the processes that run are
numbered from `n` on, and the block of `n` keeps its argument. -/
structure KeepsArg (n : ℤ) (arg : Bytes) (m : Machine) : Prop where
  inv : m.Inv
  booted : m.mode ≠ .boot
  user : ∀ q, m.mode = .user q → n ≤ q ∧ (m.kernel.pcb (kstackToPcb n)).arg = arg

namespace KeepsArg

variable {n : ℤ} {arg : Bytes} {m m' : Machine}

theorem userInv {q : ℤ} (h : m.Inv) (hmode : m.mode = .user q) :
    UserInv m.kernel q m.procs := by
  rw [Inv, hmode] at h
  exact h

/-- A change that leaves the blocks their arguments. -/
theorem of_arg {k : Kernel} (h : KeepsArg n arg m) (hinv : Inv { m with kernel := k })
    (harg : ∀ a, (k.pcb a).arg = (m.kernel.pcb a).arg) :
    KeepsArg n arg { m with kernel := k } where
  inv := hinv
  booted := h.booted
  user q hq := ⟨(h.user q hq).1, (harg _).trans (h.user q hq).2⟩

/-- **A call of `execute`** writes the block of the new process alone. -/
theorem executeStep {p : ℤ} {st : Stale} {command : Option Bytes} (h : KeepsArg n arg m)
    (h0 : 0 ≤ n) (hmode : m.mode = .user p)
    (hclean : clean m (.execute st command) = true)
    (hinv : (m.executeStep p st command).Inv) :
    KeepsArg n arg (m.executeStep p st command) := by
  have huser := userInv h.inv hmode
  obtain ⟨hnp, harg⟩ := h.user p hmode
  rcases executeStep_cases hmode hclean with ⟨k, hstart, heq⟩ | ⟨c, heq⟩ | heq
  · rw [heq] at hinv ⊢
    have hacc' := huser.accounted.started hstart
    have hhi := hacc'.hi
    have hne := hstart.pcb_of_ne
    rw [huser.accounted.activeProc] at hne
    refine ⟨hinv, by simp, fun q hq => ?_⟩
    obtain rfl : k.activeProc = q := Mode.user.inj hq
    rw [hacc'.activeProc]
    refine ⟨by omega, ?_⟩
    show (k.pcb (kstackToPcb n)).arg = arg
    rw [hne _ (fun heq => ?_), harg]
    have := kstackToPcb_injective h0 (by omega) (by omega) (by omega) heq
    omega
  · rw [heq] at hinv ⊢
    exact h.of_arg hinv (fun a => rfl)
  · rw [heq] at hinv ⊢
    exact ⟨hinv, by simp, by simp⟩

/-- **A call of `halt`** by a process above `n` writes at most the block of
that process. -/
theorem haltStep {p : ℤ} {st : Stale} {status : UInt8} (h : KeepsArg n arg m) (h0 : 0 ≤ n)
    (hmode : m.mode = .user p) (hp : p ≠ n) (hclean : clean m (.halt st status) = true)
    (hinv : (m.haltStep p st).Inv) : KeepsArg n arg (m.haltStep p st) := by
  have hacc := (userInv h.inv hmode).accounted
  obtain ⟨hnp, harg⟩ := h.user p hmode
  have hhi := hacc.hi
  have hne : kstackToPcb n ≠ kstackToPcb p := fun heq => by
    have := kstackToPcb_injective h0 (by omega) (by omega) (by omega) heq
    omega
  rcases haltStep_cases p hacc.getPcb_esp0 hclean with
    ⟨-, ⟨k, hstart, heq⟩ | ⟨-, heq⟩⟩ | ⟨-, k, hend, heq⟩
  · -- The new shell has the block of `p`.
    rw [heq] at hinv ⊢
    have hactive : k.activeProc = p := hstart.respawned_activeProc.trans hacc.activeProc
    have hkept := hstart.pcb_of_ne (kstackToPcb n) (by
      rw [← hstart.activeProc, hactive]
      exact hne)
    refine ⟨hinv, by simp, fun q hq => ?_⟩
    obtain rfl : k.activeProc = q := Mode.user.inj hq
    refine ⟨hactive ▸ hnp, ?_⟩
    show (k.pcb (kstackToPcb n)).arg = arg
    rw [hkept]
    exact harg
  · rw [heq] at hinv ⊢
    exact ⟨hinv, by simp, by simp⟩
  · rw [heq] at hinv ⊢
    refine ⟨hinv, by simp, fun q hq => ?_⟩
    have hq' := (userInv hinv hq).accounted.activeProc
    rw [land_user hq, hend.activeProc] at hq'
    have hdown : m.kernel.uncountProcess.activeProc = p - 1 :=
      congrArg (fun z => z - 1) hacc.activeProc
    refine ⟨by omega, ?_⟩
    rw [land_user hq, hend.pcb_of_ne _ hne]
    exact harg

/-- **Every clean step in which `n` does not halt.** -/
theorem step {e : Event} (h : KeepsArg n arg m) (h0 : 0 ≤ n)
    (hstep : guarded (fun m e => clean m e && stillRuns n m e) Machine.step m e = some m') :
    KeepsArg n arg m' := by
  obtain ⟨hok, hstep⟩ := guarded_eq_some.mp hstep
  obtain ⟨hclean, hruns⟩ := (Bool.and_eq_true _ _).mp hok
  have hinv := h.inv.step (guarded_eq_some.mpr ⟨hclean, hstep⟩)
  cases step_cases hstep with
  | boot hmode => exact absurd hmode h.booted
  | execute hmode => exact h.executeStep h0 hmode hclean hinv
  | @halt st status p hmode =>
    rw [stillRuns, hmode, decide_eq_true_eq] at hruns
    exact h.haltStep h0 hmode (fun heq => hruns (congrArg Mode.user heq)) hclean hinv
  | @resume pcb hmode =>
    -- By the invariant this `halt` continues in itself.
    have hframe := h.inv
    rw [Inv, hmode] at hframe
    have hself : (m.kernel.pcb pcb).frame = .halt pcb := hframe
    rw [resumeStep, haltTail_fst, hself] at hinv ⊢
    exact ⟨hinv, by simp, by simp⟩
  | call hmode hcall => exact h.of_arg hinv (fileCall_arg hcall)
  | vidmap hmode hcall =>
    exact h.of_arg hinv (fun a => by rw [(sysVidmap_sameProcesses hcall).pcb])
  | trap hmode => exact ⟨hinv, by simp, by simp⟩
  | @key sc hmode =>
    exact h.of_arg hinv (fun a => by rw [(kbdIntrHandler_sameProcesses m.kernel sc).pcb])

end KeepsArg

/-- **The argument survives.** If process `p` starts a program with an
argument, then as long as that program does not halt, whatever it does and
whatever programs it starts, its `getargs` finds the argument whenever it
runs; in a run, that is, whose calls of `execute` are refused or load
completely. -/
theorem args_survive {m m' : Machine} {p : ℤ} {st : Stale} {command : Bytes}
    {name w : List UInt8} {k : Kernel} {es : List Event} (hm : CleanReached m)
    (hmode : m.mode = .user p) (hcommand : ArgCommand command name w)
    (hexec : execute m.kernel st (.syscall p) (some command) = .started k)
    (hrun : run (guarded (fun m e => clean m e && stillRuns (p + 1) m e) Machine.step)
      (m.executeStep p st (some command)) es = some m')
    (hmode' : m'.mode = .user (p + 1)) (b : Bytes) {nbytes : ℤ} (hnbytes : 0 ≤ nbytes) :
    GetsArg w b nbytes (sysGetargs m'.kernel (getPcb m'.kernel.esp0) (some b) nbytes) := by
  have huser := hm.user hmode
  have hlo := huser.accounted.lo
  have hactive := huser.accounted.activeProc
  have hshort := hcommand.short
  have hstored := holdsArg_of_execute hcommand (by omega) hexec
  rw [hactive] at hstored
  -- The child runs once it is started.
  have hchild : KeepsArg (p + 1) (k.pcb (kstackToPcb (p + 1))).arg
      (m.executeStep p st (some command)) := by
    have hstart := started_of_execute hexec
    have hnum := (huser.accounted.started hstart).activeProc
    rw [Machine.executeStep, hexec]
    refine ⟨inv_launch_child huser hstart, by simp, fun q hq => ?_⟩
    obtain rfl : k.activeProc = q := Mode.user.inj hq
    exact ⟨hnum.ge, rfl⟩
  have hkeeps : KeepsArg (p + 1) (k.pcb (kstackToPcb (p + 1))).arg m' :=
    run_induction (fun _ _ _ h hstep => KeepsArg.step h (by omega) hstep) hchild hrun
  obtain ⟨-, harg⟩ := hkeeps.user (p + 1) hmode'
  rw [(KeepsArg.userInv hkeeps.inv hmode').accounted.getPcb_esp0]
  exact getsArg_of_holdsArg (harg ▸ hstored) hcommand.arg_word hcommand.arg_ne (by omega) b
    hnbytes

/-- The first shell executes `shell abc`, and the second one executes a third,
which halts. -/
theorem args_survive_nested :
    ∃ m m', run (guarded clean Machine.step) (start loadedKernel) [.boot zeroStale] = some m
      ∧ run (guarded (fun m e => clean m e && stillRuns 1 m e) Machine.step)
          (m.executeStep 0 zeroStale (some (cstring "shell abc")))
          [.execute zeroStale (some (cstring "shell")), .halt zeroStale 0] = some m'
      ∧ GetsArg (ascii "abc") (fun _ => 0) 4
          (sysGetargs m'.kernel (getPcb m'.kernel.esp0) (some (fun _ => 0)) 4) := by
  have hcommand : ArgCommand (cstring "shell abc") (ascii "shell") (ascii "abc") :=
    ⟨by decide +kernel, by decide +kernel, by decide, by decide, by decide, by decide⟩
  have hstate : (run (guarded clean Machine.step) (start loadedKernel) [.boot zeroStale]).map
      (fun m => (m.mode,
        (KernelDesign.execute m.kernel zeroStale (.syscall 0)
          (some (cstring "shell abc"))).isStarted,
        (run (guarded (fun m e => clean m e && stillRuns 1 m e) Machine.step)
          (m.executeStep 0 zeroStale (some (cstring "shell abc")))
          [.execute zeroStale (some (cstring "shell")), .halt zeroStale 0]).map
            (fun m => m.mode)))
      = some (.user 0, true, some (.user 1)) := by
    decide +kernel
  obtain ⟨m, hrun, hm⟩ := Option.map_eq_some_iff.mp hstate
  rw [Prod.mk.injEq, Prod.mk.injEq] at hm
  obtain ⟨hmode, hstarted, hrest⟩ := hm
  obtain ⟨k, hk⟩ := ExecResult.exists_of_isStarted hstarted
  obtain ⟨m', hrun', hmode'⟩ := Option.map_eq_some_iff.mp hrest
  exact ⟨m, m', hrun, hrun', args_survive ⟨loadedKernel, _, loadedKernel_booting, hrun⟩ hmode
    hcommand hk hrun' hmode' _ (by decide)⟩

/-- **The argument is lost after a failed load**: the second shell has the
argument `abc`. Its call `execute("broken")` fails in the load, and when the
program it starts next halts, it is on the stack of process 2, whose block
has no argument. -/
theorem args_lost_after_failed_load :
    ∃ m, run Machine.step (start loadedKernel)
        [.boot zeroStale, .execute zeroStale (some (cstring "shell abc")),
          .execute zeroStale (some (cstring "broken")),
          .execute zeroStale (some (cstring "shell")), .halt zeroStale 0] = some m
      ∧ m.mode = .user 1
      ∧ (sysGetargs m.kernel (getPcb m.kernel.esp0) (some (fun _ => 0)) 1024).ret = -1
      ∧ ¬ GetsArg (ascii "abc") (fun _ => 0) 1024
          (sysGetargs m.kernel (getPcb m.kernel.esp0) (some (fun _ => 0)) 1024) := by
  have hstate : (run Machine.step (start loadedKernel)
      [.boot zeroStale, .execute zeroStale (some (cstring "shell abc")),
        .execute zeroStale (some (cstring "broken")),
        .execute zeroStale (some (cstring "shell")), .halt zeroStale 0]).map
        (fun m => (m.mode,
          (sysGetargs m.kernel (getPcb m.kernel.esp0) (some (fun _ => 0)) 1024).ret))
      = some (.user 1, -1) := by
    decide +kernel
  obtain ⟨m, hrun, hm⟩ := Option.map_eq_some_iff.mp hstate
  rw [Prod.mk.injEq] at hm
  obtain ⟨hmode, hret⟩ := hm
  refine ⟨m, hrun, hmode, hret, fun hgets => ?_⟩
  have hzero := hgets.ret_iff.mpr (by decide)
  rw [hret] at hzero
  exact absurd hzero (by decide)

end Machine

end KernelDesign
