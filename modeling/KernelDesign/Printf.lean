import KernelDesign.Console
import KernelDesign.NumberFormat

/-!
# `printf`

The scanner of `printf` walks over its format: an outer loop that ends at
the NUL, and for each `%` an inner switch that a `#` re-enters. The state
records how far the scanner is, how many arguments it has taken, and every
offset of the format it has read.

A format is a sequence of pieces, and what `printf` does is what it does for
each piece in turn (`printfLoop_pieces`). The formats that are no sequence
of pieces are those that end inside a conversion (`pieces_or_unfinished`).
There the switch takes the NUL for an unknown conversion, and the loop goes
on behind it (`printf_stops_iff`).
-/

namespace KernelDesign

open Words

/-! ## The scanner -/

/-- **What `printf` finds besides its format**: the words above it on the
stack, the strings that such words point to, and the address of
`conv_buf`. -/
structure PrintfArgs where
  word : ℕ → UInt32
  string : UInt32 → List UInt8
  convBuf : ℕ

/-- **The state of `printf`**: how far `buf` is past `format` and `esp` past
the first argument, the console, the memory of `conv_buf`, and the offsets
of the format that have been read. -/
structure PrintfState where
  buf : ℕ
  esp : ℕ
  console : Console
  memory : Memory UInt8
  reads : List ℕ

namespace PrintfState

/-- Read `*buf`. -/
def read (s : PrintfState) : PrintfState := { s with reads := s.buf :: s.reads }

/-- Print a text and take an argument. -/
def putArgument (s : PrintfState) (text : List UInt8) : PrintfState :=
  { s with console := s.console.puts text, esp := s.esp + 1 }

/-- Print what a conversion leaves in `conv_buf`. -/
def putNumber (s : PrintfState) (r : Option (List UInt8 × Memory UInt8)) :
    Option PrintfState :=
  r.map (fun r => { s.putArgument r.1 with memory := r.2 })

end PrintfState

/-- **The cases of the switch** on the conversion character other than
`#`. -/
def convert (a : PrintfArgs) (alternate : Bool) (c : UInt8) (s : PrintfState) :
    Option PrintfState :=
  let arg := a.word s.esp
  if c = 0x25 then some { s with console := s.console.putc 0x25 }
  else if c = 0x78 then
    s.putNumber
      (if alternate then convHexAlternate s.memory a.convBuf arg
        else convHex s.memory a.convBuf arg)
  else if c = 0x75 then s.putNumber (convUnsigned s.memory a.convBuf arg)
  else if c = 0x64 then s.putNumber (convSigned s.memory a.convBuf arg)
  else if c = 0x63 then some (s.putArgument [arg.toUInt8])
  else if c = 0x73 then some (s.putArgument (a.string arg))
  else some s

/-- **`format_char_switch`**, which a `#` enters again, with `n` entries
left. -/
def formatCharSwitch (format : Bytes) (a : PrintfArgs) : ℕ → Bool → PrintfState →
    Option PrintfState
  | 0, _, _ => none
  | n + 1, alternate, s =>
    let c := format s.buf
    let s := s.read
    if c = 0x23 then formatCharSwitch format a n true { s with buf := s.buf + 1 }
    else convert a alternate c s

/-- **The loop of `printf`** with `n` tests left. -/
def printfLoop (format : Bytes) (a : PrintfArgs) : ℕ → PrintfState → Option PrintfState
  | 0, _ => none
  | n + 1, s =>
    let c := format s.buf
    let s := s.read
    if c = 0 then some s
    else if c = 0x25 then
      (formatCharSwitch format a n false { s with buf := s.buf + 1 }).bind
        (fun s => printfLoop format a n { s with buf := s.buf + 1 })
    else printfLoop format a n { s with console := s.console.putc c, buf := s.buf + 1 }

/-- **`printf`** with `n` tests: what it returns, and its last state. -/
def printf (n : ℕ) (format : Bytes) (a : PrintfArgs) (console : Console)
    (memory : Memory UInt8) : Option (ℤ × PrintfState) :=
  (printfLoop format a n ⟨0, 0, console, memory, []⟩).map (fun s => (i32 s.buf, s))

variable {format : Bytes} {a : PrintfArgs}

/-! ## More tests change nothing -/

theorem formatCharSwitch_mono {n : ℕ} {alternate : Bool} {s r : PrintfState}
    (h : formatCharSwitch format a n alternate s = some r) :
    formatCharSwitch format a (n + 1) alternate s = some r := by
  induction n generalizing alternate s with
  | zero => exact absurd h nofun
  | succ n ih =>
    rw [formatCharSwitch] at h ⊢
    split at h
    · rename_i hflag
      rw [if_pos hflag]
      exact ih h
    · rename_i hflag
      rw [if_neg hflag]
      exact h

theorem printfLoop_mono {n : ℕ} {s r : PrintfState} (h : printfLoop format a n s = some r) :
    printfLoop format a (n + 1) s = some r := by
  induction n generalizing s with
  | zero => exact absurd h nofun
  | succ n ih =>
    rw [printfLoop] at h ⊢
    split at h
    · rename_i hnul
      rw [if_pos hnul]
      exact h
    rename_i hnul
    rw [if_neg hnul]
    split at h
    · rename_i hpercent
      rw [if_pos hpercent]
      obtain ⟨s', hswitch, hrest⟩ := Option.bind_eq_some_iff.mp h
      rw [formatCharSwitch_mono hswitch, Option.bind_some]
      exact ih hrest
    · rename_i hpercent
      rw [if_neg hpercent]
      exact ih h

/-- A run that returns does so with any greater number of tests. -/
theorem printfLoop_of_le {n n' : ℕ} (hle : n ≤ n') {s r : PrintfState}
    (h : printfLoop format a n s = some r) : printfLoop format a n' s = some r := by
  induction hle with
  | refl => exact h
  | step _ ih => exact printfLoop_mono ih

/-! ## What a conversion does -/

/-- Whether a conversion character takes an argument. -/
def takes (c : UInt8) : ℕ :=
  if c = 0x78 ∨ c = 0x75 ∨ c = 0x64 ∨ c = 0x63 ∨ c = 0x73 then 1 else 0

/-- **What a conversion prints**, for the argument it finds. -/
def conversionText (a : PrintfArgs) (alternate : Bool) (c : UInt8) (arg : UInt32) :
    List UInt8 :=
  if c = 0x25 then [0x25]
  else if c = 0x78 then
    if alternate then
      List.replicate (8 - (numberText 16 arg.toNat).length) 0x30 ++ numberText 16 arg.toNat
    else numberText 16 arg.toNat
  else if c = 0x75 then numberText 10 arg.toNat
  else if c = 0x64 then signedText arg
  else if c = 0x63 then [arg.toUInt8]
  else if c = 0x73 then a.string arg
  else []

/-- **What a part of the format does to the state**: the scanner is `len`
bytes further and has read no byte from there on, and the part has printed
`text` and taken `args` arguments. -/
structure PrintfState.Moves (s s' : PrintfState) (len : ℕ) (text : List UInt8) (args : ℕ) :
    Prop where
  buf : s'.buf = s.buf + len
  console : s'.console = s.console.puts text
  esp : s'.esp = s.esp + args
  reads : ∀ j ∈ s'.reads, j ∈ s.reads ∨ j < s'.buf

/-- A number goes from `conv_buf` to the console. -/
theorem PrintfState.putNumber_eq {s : PrintfState} {text : List UInt8} {memory : Memory UInt8}
    {r : Option (List UInt8 × Memory UInt8)} (h : r = some (text, memory)) :
    s.putNumber r = some { s.putArgument text with memory := memory } := by
  rw [h]
  rfl

/-- **A conversion prints its text** and takes its argument. -/
theorem convert_spec (alternate : Bool) (c : UInt8) (s : PrintfState) :
    ∃ memory, convert a alternate c s
      = some { s with
          console := s.console.puts (conversionText a alternate c (a.word s.esp))
          esp := s.esp + takes c
          memory := memory } := by
  simp only [convert, conversionText, takes]
  by_cases hpercent : c = 0x25
  · subst hpercent
    exact ⟨s.memory, rfl⟩
  simp only [if_neg hpercent]
  by_cases hx : c = 0x78
  · simp only [hx, true_or, if_true]
    cases alternate with
    | true =>
      obtain ⟨memory, hconv, -⟩ := convHexAlternate_spec s.memory a.convBuf (a.word s.esp)
      exact ⟨memory, PrintfState.putNumber_eq hconv⟩
    | false =>
      obtain ⟨memory, hconv, -⟩ :=
        conv_spec s.memory a.convBuf (a.word s.esp) (show 2 ≤ 16 by decide) (by decide)
          (show 33 ≤ 64 by decide)
      exact ⟨memory, PrintfState.putNumber_eq hconv⟩
  simp only [if_neg hx]
  by_cases hu : c = 0x75
  · simp only [hu, true_or, or_true, if_true]
    obtain ⟨memory, hconv, -⟩ :=
      conv_spec s.memory a.convBuf (a.word s.esp) (show 2 ≤ 10 by decide) (by decide)
        (show 33 ≤ 36 by decide)
    exact ⟨memory, PrintfState.putNumber_eq hconv⟩
  simp only [if_neg hu]
  by_cases hd : c = 0x64
  · simp only [hd, true_or, or_true, if_true]
    obtain ⟨memory, hconv, -⟩ := convSigned_spec s.memory a.convBuf (a.word s.esp)
    generalize signedText (a.word s.esp) = text at *
    exact ⟨memory, PrintfState.putNumber_eq hconv⟩
  simp only [if_neg hd]
  by_cases hc : c = 0x63
  · simp only [hc, true_or, or_true, if_true]
    exact ⟨s.memory, rfl⟩
  simp only [if_neg hc]
  by_cases hs : c = 0x73
  · simp only [hs, or_true, if_true]
    exact ⟨s.memory, rfl⟩
  · simp only [hx, hu, hd, hc, hs, or_self, if_false]
    exact ⟨s.memory, rfl⟩

/-! ## Formats as sequences of pieces -/

/-- **A piece of a format**: a character other than `%`, or a `%` with any
number of `#` and the conversion character behind them. -/
inductive Piece
  | char (c : UInt8) (h : c ≠ 0x25)
  | conversion (flags : ℕ) (c : UInt8) (h : c ≠ 0x23)

namespace Piece

/-- The bytes of a piece. -/
def bytes : Piece → List UInt8
  | char c _ => [c]
  | conversion flags c _ => 0x25 :: (List.replicate flags 0x23 ++ [c])

/-- What a piece prints, if it finds its argument at `esp`. -/
def text (a : PrintfArgs) (esp : ℕ) : Piece → List UInt8
  | char c _ => [c]
  | conversion flags c _ => conversionText a (decide (0 < flags)) c (a.word esp)

/-- How many arguments a piece takes. -/
def args : Piece → ℕ
  | char _ _ => 0
  | conversion _ c _ => takes c

end Piece

/-- The bytes of a sequence of pieces. -/
def formatBytes (ps : List Piece) : List UInt8 := ps.flatMap Piece.bytes

/-- **What a sequence of pieces prints**, from the argument at `esp` on. -/
def formatText (a : PrintfArgs) : ℕ → List Piece → List UInt8
  | _, [] => []
  | esp, p :: ps => p.text a esp ++ formatText a (esp + p.args) ps

/-- How many arguments a sequence of pieces takes. -/
def formatArgs (ps : List Piece) : ℕ := (ps.map Piece.args).sum

namespace PrintfState.Moves

variable {s s' s'' : PrintfState} {len len' args args' : ℕ} {text text' : List UInt8}

theorem refl (s : PrintfState) : s.Moves s 0 [] 0 :=
  ⟨rfl, rfl, rfl, fun _ hj => .inl hj⟩

/-- One part after another. -/
theorem trans (h : s.Moves s' len text args) (h' : s'.Moves s'' len' text' args') :
    s.Moves s'' (len + len') (text ++ text') (args + args') := by
  refine ⟨?_, ?_, ?_, fun j hj => ?_⟩
  · rw [h'.buf, h.buf, Nat.add_assoc]
  · rw [h'.console, h.console]
    exact List.foldl_append.symm
  · rw [h'.esp, h.esp, Nat.add_assoc]
  · have hbuf := h'.buf
    obtain hj | hj := h'.reads j hj
    · obtain hj | hj := h.reads j hj
      · exact .inl hj
      · exact .inr (by omega)
    · exact .inr hj

/-- The byte at `buf` is read before the scanner moves over it. -/
theorem read_next (console : Console) (memory : Memory UInt8) (esp : ℕ)
    (hconsole : console = s.console.puts text) (hesp : esp = s.esp + args) :
    s.Moves ⟨s.buf + 1, esp, console, memory, s.buf :: s.reads⟩ 1 text args := by
  refine ⟨rfl, hconsole, hesp, fun j hj => ?_⟩
  obtain rfl | hj := List.mem_cons.mp hj
  · exact .inr (Nat.lt_succ_self _)
  · exact .inl hj

end PrintfState.Moves

/-- **A conversion**: the switch skips the flags and treats the character
behind them, and `buf` is then one further. -/
theorem formatCharSwitch_spec {flags : ℕ} {c : UInt8} (hc : c ≠ 0x23) (alternate : Bool)
    {s : PrintfState} {t : List UInt8}
    (h : Spells (format.drop s.buf) (List.replicate flags 0x23 ++ t))
    (hchar : format (s.buf + flags) = c) :
    ∃ s', (∀ n, flags < n → formatCharSwitch format a n alternate s = some s')
      ∧ s.Moves { s' with buf := s'.buf + 1 } (flags + 1)
        (conversionText a (alternate || decide (0 < flags)) c (a.word s.esp)) (takes c) := by
  induction flags generalizing alternate s with
  | zero =>
    obtain ⟨memory, hconvert⟩ := convert_spec (a := a) alternate c s.read
    rw [decide_eq_false (Nat.lt_irrefl 0), Bool.or_false]
    refine ⟨{ s.read with
      console := s.console.puts (conversionText a alternate c (a.word s.esp))
      esp := s.esp + takes c
      memory := memory }, fun n hn => ?_, .read_next _ memory _ rfl rfl⟩
    obtain ⟨n, rfl⟩ := Nat.exists_eq_succ_of_ne_zero (Nat.ne_of_gt hn)
    have hhere : format s.buf = c := hchar
    rw [formatCharSwitch, hhere]
    exact (if_neg hc).trans hconvert
  | succ flags ih =>
    rw [List.replicate_succ, List.cons_append] at h
    have hhead : format s.buf = 0x23 := h.head
    have htail := h.tail
    rw [Buffer.drop_drop] at htail
    have hnext : s.Moves { s.read with buf := s.buf + 1 } 1 [] 0 :=
      .read_next s.console s.memory s.esp rfl rfl
    obtain ⟨s', hrun, hmoves⟩ := ih true (s := { s.read with buf := s.buf + 1 }) htail
      (by rw [← hchar, ← Nat.add_assoc, Nat.add_right_comm])
    refine ⟨s', fun n hn => ?_, ?_⟩
    · obtain ⟨n, rfl⟩ := Nat.exists_eq_succ_of_ne_zero (Nat.ne_of_gt (Nat.zero_lt_of_lt hn))
      rw [formatCharSwitch, hhead]
      exact (if_pos rfl).trans (hrun n (by omega))
    · have hall := hnext.trans hmoves
      rw [Bool.true_or, List.nil_append, Nat.zero_add, Nat.add_comm 1] at hall
      rw [decide_eq_true (Nat.succ_pos flags), Bool.or_true]
      exact hall

/-- **A `%` and what follows it**: the loop goes on behind the character
that is no flag. -/
theorem printfLoop_percent {flags : ℕ} {c : UInt8} (hc : c ≠ 0x23) {s : PrintfState}
    {t : List UInt8} (h : Spells (format.drop s.buf) (0x25 :: (List.replicate flags 0x23 ++ t)))
    (hchar : format (s.buf + 1 + flags) = c) :
    ∃ s', (∀ n, flags < n → printfLoop format a (n + 1) s = printfLoop format a n s')
      ∧ s.Moves s' (flags + 2) (conversionText a (decide (0 < flags)) c (a.word s.esp))
        (takes c) := by
  have hhead : format s.buf = 0x25 := h.head
  have htail := h.tail
  rw [Buffer.drop_drop] at htail
  have hnext : s.Moves { s.read with buf := s.buf + 1 } 1 [] 0 :=
    .read_next s.console s.memory s.esp rfl rfl
  obtain ⟨s', hswitch, hmoves⟩ := formatCharSwitch_spec (a := a) hc false
    (s := { s.read with buf := s.buf + 1 }) htail hchar
  refine ⟨{ s' with buf := s'.buf + 1 }, fun n hn => ?_, ?_⟩
  · rw [printfLoop, hhead]
    refine (if_neg (by decide)).trans ((if_pos rfl).trans ?_)
    exact (congrArg (Option.bind · _) (hswitch n hn)).trans rfl
  · have hall := hnext.trans hmoves
    rw [Bool.false_or, List.nil_append, Nat.zero_add, Nat.add_comm 1] at hall
    exact hall

/-- **One piece is one round of the loop.** -/
theorem printfLoop_piece (p : Piece) {s : PrintfState} {t : List UInt8}
    (h : Spells (format.drop s.buf) (p.bytes ++ t)) :
    ∃ s', (∀ n, p.bytes.length ≤ n → printfLoop format a (n + 1) s = printfLoop format a n s')
      ∧ s.Moves s' p.bytes.length (p.text a s.esp) p.args := by
  cases p with
  | char c hc =>
    have hhead : format s.buf = c := h.head
    have hne : c ≠ 0 := h.ne_nul c List.mem_cons_self
    refine ⟨_, fun n _ => ?_, .read_next (s.console.putc c) s.memory s.esp rfl rfl⟩
    rw [printfLoop, hhead]
    exact (if_neg hne).trans (if_neg hc)
  | conversion flags c hc =>
    rw [Piece.bytes, List.cons_append, List.append_assoc] at h
    have hlast := h.tail
    rw [Buffer.drop_drop] at hlast
    have hchar := hlast.drop.head
    rw [Buffer.drop_drop, List.length_replicate] at hchar
    obtain ⟨s', hrun, hmoves⟩ := printfLoop_percent (a := a) hc h hchar
    have hlen : (Piece.conversion flags c hc).bytes.length = flags + 2 := by
      simp [Piece.bytes]
    rw [hlen]
    exact ⟨s', fun n hn => hrun n (by omega), hmoves⟩

/-- **A sequence of pieces** takes one round each. -/
theorem printfLoop_pieces (ps : List Piece) {s : PrintfState} {t : List UInt8}
    (h : Spells (format.drop s.buf) (formatBytes ps ++ t)) :
    ∃ s', (∀ n, (formatBytes ps).length ≤ n →
        printfLoop format a (n + ps.length) s = printfLoop format a n s')
      ∧ s.Moves s' (formatBytes ps).length (formatText a s.esp ps) (formatArgs ps)
      ∧ Spells (format.drop s'.buf) t := by
  induction ps generalizing s with
  | nil => exact ⟨s, fun _ _ => rfl, .refl s, h⟩
  | cons p ps ih =>
    rw [formatBytes, List.flatMap_cons, List.append_assoc] at h
    obtain ⟨s₁, hrun₁, hmoves₁⟩ := printfLoop_piece (a := a) p h
    have hrest := h.drop
    rw [Buffer.drop_drop, ← hmoves₁.buf] at hrest
    obtain ⟨s₂, hrun₂, hmoves₂, hspells⟩ := ih hrest
    have hlen : (formatBytes (p :: ps)).length = p.bytes.length + (formatBytes ps).length := by
      rw [formatBytes, List.flatMap_cons, List.length_append]
      rfl
    rw [hmoves₁.esp] at hmoves₂
    refine ⟨s₂, fun n hn => ?_, ?_, hspells⟩
    · rw [List.length_cons, ← Nat.add_assoc, hrun₁ _ (by omega), hrun₂ n (by omega)]
    · rw [hlen]
      exact hmoves₁.trans hmoves₂

/-! ## Where `printf` ends -/

theorem formatCharSwitch_reads {n : ℕ} {alternate : Bool} {s r : PrintfState}
    (h : formatCharSwitch format a n alternate s = some r) {j : ℕ} (hj : j ∈ s.reads) :
    j ∈ r.reads := by
  induction n generalizing alternate s with
  | zero => exact absurd h nofun
  | succ n ih =>
    rw [formatCharSwitch] at h
    split at h
    · exact ih h (List.mem_cons_of_mem _ hj)
    · obtain ⟨memory, hconvert⟩ := convert_spec (a := a) alternate (format s.buf) s.read
      obtain rfl := Option.some.inj (h.symm.trans hconvert)
      exact List.mem_cons_of_mem _ hj

/-- What has been read stays read. -/
theorem printfLoop_reads {n : ℕ} {s r : PrintfState} (h : printfLoop format a n s = some r)
    {j : ℕ} (hj : j ∈ s.read.reads) : j ∈ r.reads := by
  induction n generalizing s with
  | zero => exact absurd h nofun
  | succ n ih =>
    rw [printfLoop] at h
    split at h
    · obtain rfl := Option.some.inj h
      exact hj
    split at h
    · obtain ⟨s', hswitch, hrest⟩ := Option.bind_eq_some_iff.mp h
      exact ih hrest (List.mem_cons_of_mem _ (formatCharSwitch_reads hswitch hj))
    · exact ih h (List.mem_cons_of_mem _ hj)

/-- **A format of pieces**: `printf` prints them, and its last read is the
one of the NUL. -/
theorem printf_pieces (s : CString) (a : PrintfArgs) (console : Console) (memory : Memory UInt8)
    {ps : List Piece} (hps : s.text = formatBytes ps) :
    ∃ n r, printf n s.bytes a console memory = some (i32 s.length, r)
      ∧ r.console = console.puts (formatText a 0 ps) ∧ r.esp = formatArgs ps
      ∧ ∀ j ∈ r.reads, j ≤ s.length := by
  have hspells := s.spells
  rw [hps, ← List.append_nil (formatBytes ps), ← Buffer.drop_zero s.bytes] at hspells
  obtain ⟨r, hrun, hmoves, hend⟩ := printfLoop_pieces (a := a) ps
    (s := ⟨0, 0, console, memory, []⟩) hspells
  have hlen : r.buf = s.length := by
    rw [hmoves.buf, ← hps, s.length_text, Nat.zero_add]
  refine ⟨(formatBytes ps).length + 1 + ps.length, r.read, ?_, hmoves.console, ?_, fun j hj => ?_⟩
  · have hnul : s.bytes r.buf = 0 := hend.nul
    rw [printf, hrun _ (Nat.le_succ _), printfLoop, hnul]
    refine (congrArg (Option.map _) (if_pos rfl)).trans ?_
    rw [Option.map_some, ← hlen]
    rfl
  · exact hmoves.esp.trans (Nat.zero_add _)
  · obtain rfl | hj := List.mem_cons.mp hj
    · exact Nat.le_of_eq hlen
    · have hread := hmoves.reads j hj
      rw [hlen] at hread
      exact Nat.le_of_lt (hread.resolve_left List.not_mem_nil)

/-- A text without `%` is a sequence of characters. -/
theorem exists_chars {t : List UInt8} (h : 0x25 ∉ t) :
    ∃ ps, t = formatBytes ps ∧ ∀ a esp, formatText a esp ps = t := by
  induction t with
  | nil => exact ⟨[], rfl, fun _ _ => rfl⟩
  | cons c t ih =>
    obtain ⟨ps, hbytes, htext⟩ := ih (fun hmem => h (List.mem_cons_of_mem c hmem))
    have hc : c ≠ 0x25 := fun heq => h (heq ▸ List.mem_cons_self)
    refine ⟨.char c hc :: ps, congrArg (List.cons c) hbytes, fun a esp => ?_⟩
    exact congrArg (List.cons c) (htext a esp)

/-- **A format without conversions** is printed as it is. -/
theorem printf_plain (s : CString) (a : PrintfArgs) (console : Console) (memory : Memory UInt8)
    (h : 0x25 ∉ s.text) :
    ∃ n r, printf n s.bytes a console memory = some (i32 s.length, r)
      ∧ r.console = console.puts s.text := by
  obtain ⟨ps, hbytes, htext⟩ := exists_chars h
  obtain ⟨n, r, hrun, hconsole, -, -⟩ := printf_pieces s a console memory hbytes
  exact ⟨n, r, hrun, by rw [hconsole, htext]⟩

/-- **A format that ends inside a conversion**: a run that returns has read
the byte behind the NUL. -/
theorem printf_unfinished {s : CString} {a : PrintfArgs} {console : Console}
    {memory : Memory UInt8} {ps : List Piece} {flags : ℕ}
    (hps : s.text = formatBytes ps ++ 0x25 :: List.replicate flags 0x23) {n : ℕ}
    {r : ℤ × PrintfState} (h : printf n s.bytes a console memory = some r) :
    s.length + 1 ∈ r.2.reads := by
  obtain ⟨r, hrun, rfl⟩ := Option.map_eq_some_iff.mp h
  have hspells := s.spells
  rw [hps, ← Buffer.drop_zero s.bytes] at hspells
  obtain ⟨s₁, hrun₁, hmoves₁, hspells₁⟩ := printfLoop_pieces (a := a) ps
    (s := ⟨0, 0, console, memory, []⟩) hspells
  have hlen : s₁.buf + 1 + flags = s.length := by
    have hbuf : s₁.buf = 0 + (formatBytes ps).length := hmoves₁.buf
    rw [hbuf, ← s.length_text, hps, List.length_append, List.length_cons, List.length_replicate]
    omega
  rw [← List.append_nil (List.replicate flags 0x23)] at hspells₁
  obtain ⟨s₂, hrun₂, hmoves₂⟩ := printfLoop_percent (a := a) (c := 0) (by decide)
    hspells₁ (by rw [hlen]; exact s.nul)
  -- With more tests the run goes through the pieces and the unfinished conversion.
  have hmore := printfLoop_of_le
    (show n ≤ n + (formatBytes ps).length + flags + 1 + 1 + ps.length by omega) hrun
  rw [hrun₁ _ (by omega), hrun₂ _ (by omega)] at hmore
  refine printfLoop_reads hmore ?_
  rw [← hlen, show s₁.buf + 1 + flags + 1 = s₂.buf by rw [hmoves₂.buf]; omega]
  exact List.mem_cons_self

/-- A text is its leading flags and, if it goes on, a character that is
none. -/
theorem exists_flags (t : List UInt8) :
    ∃ flags, t = List.replicate flags 0x23
      ∨ ∃ c rest, c ≠ 0x23 ∧ t = List.replicate flags 0x23 ++ c :: rest := by
  induction t with
  | nil => exact ⟨0, .inl rfl⟩
  | cons c t ih =>
    by_cases hc : c = 0x23
    · obtain ⟨flags, rfl | ⟨d, rest, hd, rfl⟩⟩ := ih
      · exact ⟨flags + 1, .inl (by rw [hc]; rfl)⟩
      · exact ⟨flags + 1, .inr ⟨d, rest, hd, by rw [hc]; rfl⟩⟩
    · exact ⟨0, .inr ⟨c, t, hc, rfl⟩⟩

/-- **A format is a sequence of pieces or ends inside a conversion.** -/
theorem pieces_or_unfinished (t : List UInt8) :
    (∃ ps, t = formatBytes ps)
      ∨ ∃ ps flags, t = formatBytes ps ++ 0x25 :: List.replicate flags 0x23 := by
  -- A piece in front of either is one piece more.
  have hcons : ∀ (p : Piece) (t : List UInt8),
      ((∃ ps, t = formatBytes ps)
        ∨ ∃ ps flags, t = formatBytes ps ++ 0x25 :: List.replicate flags 0x23) →
      (∃ ps, p.bytes ++ t = formatBytes ps)
        ∨ ∃ ps flags, p.bytes ++ t = formatBytes ps ++ 0x25 :: List.replicate flags 0x23 := by
    rintro p t (⟨ps, rfl⟩ | ⟨ps, flags, rfl⟩)
    · exact .inl ⟨p :: ps, rfl⟩
    · refine .inr ⟨p :: ps, flags, ?_⟩
      rw [formatBytes, formatBytes, List.flatMap_cons, List.append_assoc]
  induction hlen : t.length using Nat.strong_induction_on generalizing t with
  | _ n ih =>
    cases t with
    | nil => exact .inl ⟨[], rfl⟩
    | cons c t =>
      rw [List.length_cons] at hlen
      by_cases hc : c = 0x25
      · obtain ⟨flags, rfl | ⟨d, rest, hd, rfl⟩⟩ := exists_flags t
        · exact .inr ⟨[], flags, by rw [hc]; rfl⟩
        · have hshort : rest.length < n := by
            rw [List.length_append, List.length_cons] at hlen
            omega
          have hrest := hcons (.conversion flags d hd) rest (ih rest.length hshort rest rfl)
          rw [Piece.bytes, List.cons_append, List.append_assoc] at hrest
          rw [hc]
          exact hrest
      · exact hcons (.char c hc) t (ih t.length (by omega) t rfl)

/-- **`printf` stops at the end of its format**: a run returns the length
of the format and reads nothing behind its NUL. -/
def PrintfStops (s : CString) (a : PrintfArgs) (console : Console) (memory : Memory UInt8) :
    Prop :=
  ∃ n r, printf n s.bytes a console memory = some r ∧ r.1 = s.length
    ∧ ∀ j ∈ r.2.reads, j ≤ s.length

/-- The format `%`. -/
def percent : CString where
  bytes := fun j => if j = 0 then 0x25 else 0
  length := 1
  ne_zero := fun j hj => by
    rw [Nat.lt_one_iff.mp hj]
    decide
  nul := rfl

/-- **When `printf` stops at the end of its format**: when the format is a
sequence of pieces, so that it does not end inside a conversion, and its
length is an `int32_t`. -/
theorem printf_stops_iff (s : CString) (a : PrintfArgs) (console : Console)
    (memory : Memory UInt8) :
    PrintfStops s a console memory
      ↔ (∃ ps, s.text = formatBytes ps) ∧ s.length < 2147483648 := by
  constructor
  · rintro ⟨n, r, hrun, hlen, hreads⟩
    have hpieces : ∃ ps, s.text = formatBytes ps := by
      refine (pieces_or_unfinished s.text).resolve_right ?_
      rintro ⟨ps, flags, hps⟩
      have hpast := hreads _ (printf_unfinished hps hrun)
      omega
    refine ⟨hpieces, ?_⟩
    -- The value returned is an `int32_t`.
    obtain ⟨r, -, rfl⟩ := Option.map_eq_some_iff.mp hrun
    have hbounds := i32_bounds r.buf
    dsimp only at hlen
    omega
  · rintro ⟨⟨ps, hps⟩, hlen⟩
    obtain ⟨n, r, hrun, -, -, hreads⟩ := printf_pieces s a console memory hps
    rw [i32_of_bounds (by omega) (by omega)] at hrun
    exact ⟨n, _, hrun, rfl, hreads⟩

/-- **A lone `%`**: `printf` reads behind the NUL and returns 2. -/
theorem percent_reads_past :
    ¬ PrintfStops percent ⟨fun _ => 0, fun _ => [], 0⟩ ⟨0, 0, fun _ => 0, 0⟩ ⟨fun _ => 0, []⟩
      ∧ (printf 3 percent.bytes ⟨fun _ => 0, fun _ => [], 0⟩ ⟨0, 0, fun _ => 0, 0⟩
          ⟨fun _ => 0, []⟩).map (fun r => (r.1, r.2.reads)) = some (2, [2, 1, 0]) := by
  constructor
  · rintro ⟨n, r, hrun, -, hreads⟩
    have hpercent : percent.text = formatBytes [] ++ 0x25 :: List.replicate 0 0x23 := rfl
    have hpast := printf_unfinished hpercent hrun
    exact absurd (hreads _ hpast) (by decide)
  · have hrun : printfLoop percent.bytes ⟨fun _ => 0, fun _ => [], 0⟩ 3
        ⟨0, 0, ⟨0, 0, fun _ => 0, 0⟩, ⟨fun _ => 0, []⟩, []⟩
          = some ⟨2, 0, ⟨0, 0, fun _ => 0, 0⟩, ⟨fun _ => 0, []⟩, [2, 1, 0]⟩ := rfl
    have hlen : i32 (2 : ℕ) = 2 := i32_of_bounds (by decide) (by decide)
    rw [printf, hrun, Option.map_some, Option.map_some]
    dsimp only
    rw [hlen]

end KernelDesign
