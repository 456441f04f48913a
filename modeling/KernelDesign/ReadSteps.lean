import KernelDesign.LineEditor

/-!
# `term_read` step by step

`term_read` runs with the interrupts on: a key can arrive between any two of
its steps. It asks `is_kbd_ready` until a line is ready, clears the flag,
takes the output buffer and copies from it up to the newline. The flag, its
clearing and the buffer are each those of the terminal on display at that
moment, and the copy has no bound but the newline.

A `ReadSession` is a session at the keyboard with a reader beside it, which
makes one step at a time; nothing else in the kernel writes what the two
share. Without a key in between its steps are those of `termRead`
(`run_termRead`). `newline_found_iff` is that along a run the newline is
still ahead of every copy, below 128, exactly if the buffer is taken on a
terminal that had an Enter and no Enter of a shorter line comes under the
copy.
-/

namespace KernelDesign

open Kernel Transition

namespace Kernel

/-- **`is_kbd_ready`**. -/
def isKbdReady (k : Kernel) : Bool := k.term.kbdReady

/-- **`unset_kbd_ready`**. -/
def unsetKbdReady (k : Kernel) : Kernel :=
  k.setTerm k.termFlag (fun t => { t with kbdReady := false })

/-- **`get_kbd_buf`**: the pointer is to the `kbd_out_buf` of this
terminal. -/
def getKbdBuf (k : Kernel) : Fin 3 := k.termFlag

end Kernel

/-! ## The output buffers -/

/-- **A newline from `i` on**, below `KBD_BUF_SIZE`. -/
def NewlineFrom (buf : Bytes) (i : ℕ) : Prop := ∃ j < 128, i ≤ j ∧ buf j = 0x0A

instance (buf : Bytes) (i : ℕ) : Decidable (NewlineFrom buf i) :=
  inferInstanceAs (Decidable (∃ j < 128, _ ∧ _))

/-- **Enter with the line buffer**: the output buffer has a newline from `i`
on if the line reaches to `i`, or if there was one behind it. -/
theorem newlineFrom_commitLine {t : Term} (hcount : t.kbdLineCnt ≤ 127) (i : ℕ) :
    NewlineFrom (commitLine t).kbdOutBuf i
      ↔ i ≤ t.kbdLineCnt ∨ NewlineFrom t.kbdLineBuf i := by
  have hout : ∀ j, j < 128 → (commitLine t).kbdOutBuf j
      = if j = t.kbdLineCnt then 0x0A else t.kbdLineBuf j := fun j hj =>
    Buffer.copy_of_mem (Nat.zero_le j) (by omega)
  constructor
  · rintro ⟨j, hj, hij, hnewline⟩
    rw [hout j hj] at hnewline
    by_cases hcnt : j = t.kbdLineCnt
    · exact Or.inl (hcnt ▸ hij)
    · rw [if_neg hcnt] at hnewline
      exact Or.inr ⟨j, hj, hij, hnewline⟩
  · rintro (hle | ⟨j, hj, hij, hnewline⟩)
    · have hlt : t.kbdLineCnt < 128 := Nat.lt_succ_of_le hcount
      exact ⟨_, hlt, hle, (hout _ hlt).trans (if_pos rfl)⟩
    · refine ⟨j, hj, hij, ?_⟩
      rw [hout j hj, hnewline]
      exact ite_self _

/-- Terminals with the same line enter the same line. -/
theorem Kernel.SameLine.commitLine_kbdOutBuf {t t' : Term} (h : SameLine t t') :
    (commitLine t').kbdOutBuf = (commitLine t).kbdOutBuf := by
  simp [commitLine, setLineByte, h.count, h.lineBuf, h.outBuf]

namespace Kernel

/-- **No output buffer is written** when the kernel is loaded: `term_arr` is
static, and `kbd_init` leaves the buffers alone. -/
def OutBufsClear (k : Kernel) : Prop := ∀ t, ∀ j < 128, (k.termArr t).kbdOutBuf j = 0

/-- **A key and an output buffer**: an Enter on its terminal fills it, and
no other key changes it. -/
theorem kbdIntrHandler_kbdOutBuf (k : Kernel) (sc : UInt8) (u : Fin 3) :
    ((k.kbdIntrHandler sc).termArr u).kbdOutBuf
      = if k.reached sc = some (u, 0x0A) then (commitLine (k.termArr u)).kbdOutBuf
        else (k.termArr u).kbdOutBuf := by
  by_cases hfor : ∃ c, k.reached sc = some (u, c)
  · obtain ⟨c, hreached⟩ := hfor
    obtain ⟨v, hsame, heffect⟩ := kbdIntrHandler_of_reached hreached
    rw [heffect, hreached]
    by_cases hnewline : c = 0x0A
    · rw [hnewline, if_pos rfl, ← hsame.commitLine_kbdOutBuf]
      simp [charEffect]
    · rw [if_neg (by simp [hnewline]), charEffect_kbdOutBuf hnewline, hsame.outBuf]
  · have hsame : SameLine (k.termArr u) ((k.kbdIntrHandler sc).termArr u) :=
      kbdIntrHandler_sameLine (fun t c hreached hu => hfor ⟨c, hu ▸ hreached⟩)
    rw [if_neg (fun hreached => hfor ⟨_, hreached⟩)]
    exact hsame.outBuf

/-- Clearing the flag keeps the output buffers. -/
theorem unsetKbdReady_kbdOutBuf (k : Kernel) (t : Fin 3) :
    (k.unsetKbdReady.termArr t).kbdOutBuf = (k.termArr t).kbdOutBuf := by
  unfold unsetKbdReady
  refine k.setTerm_termArr_keeps k.termFlag Term.kbdOutBuf (fun v => ?_) t
  rfl

end Kernel

/-! ## The reader -/

/-- **Where a call of `term_read` is**, with the buffer it fills. -/
inductive Reader
  | idle
  /-- In the loop that waits for a line. -/
  | waiting (buf : Bytes)
  /-- Before `unset_kbd_ready`. -/
  | clearing (buf : Bytes)
  /-- Before `get_kbd_buf`. -/
  | fetching (buf : Bytes)
  /-- At index `i` of the copy from the output buffer of terminal `t`. -/
  | copying (t : Fin 3) (i : ℕ) (buf : Bytes)
  | returned (ret : ℤ) (buf : Option Bytes)

/-- **A session with a reader.** -/
structure ReadSession where
  keys : KeySession
  reader : Reader

/-- A scancode arrives, `term_read` is called, or the call makes a step. -/
inductive ReadEvent
  | key (sc : UInt8)
  | call (buf : Option Bytes) (nbytes : ℤ)
  | step

namespace ReadSession

/-- The session after `kbd_init`, without a call. -/
def start (k : Kernel) : ReadSession := ⟨KeySession.start k, .idle⟩

/-- The arguments of a call are tested first. -/
def call (s : ReadSession) (buf : Option Bytes) (nbytes : ℤ) : ReadSession :=
  match buf with
  | none => { s with reader := .returned (-1) none }
  | some b =>
    if nbytes < 0 then { s with reader := .returned (-1) (some b) }
    else { s with reader := .waiting b }

/-- **One step of `term_read`.** The buffer is cleared right after
`get_kbd_buf`. -/
def advance (s : ReadSession) : Option ReadSession :=
  let k := s.keys.kernel
  match s.reader with
  | .idle | .returned _ _ => none
  | .waiting b => some { s with reader := if k.isKbdReady then .clearing b else .waiting b }
  | .clearing b =>
    some { s with keys := { s.keys with kernel := k.unsetKbdReady }, reader := .fetching b }
  | .fetching b => some { s with reader := .copying k.getKbdBuf 0 (b.fill 0 128) }
  | .copying t i b =>
    let termLocal := (k.termArr t).kbdOutBuf
    if termLocal i = 0x0A then some { s with reader := .returned i (some b) }
    else some { s with reader := .copying t (i + 1) (Function.update b i (termLocal i)) }

/-- **A step of a session.** There is one reader, which is called again when
it is back. -/
def step (s : ReadSession) : ReadEvent → Option ReadSession
  | .key sc => (s.keys.step (.key sc)).map (fun keys => { s with keys := keys })
  | .call buf nbytes =>
    match s.reader with
    | .idle | .returned _ _ => some (s.call buf nbytes)
    | _ => none
  | .step => s.advance

/-- **What a step is**, by the event and by where the reader is. -/
inductive Stepped : ReadSession → ReadEvent → ReadSession → Prop
  | key {keys : KeySession} {reader : Reader} (sc : UInt8) :
      Stepped ⟨keys, reader⟩ (.key sc)
        ⟨⟨keys.kernel.kbdIntrHandler sc, keys.log ++ (keys.kernel.reached sc).toList⟩, reader⟩
  | refused {keys : KeySession} {reader : Reader} {buf : Option Bytes} {nbytes : ℤ} :
      Stepped ⟨keys, reader⟩ (.call buf nbytes) ⟨keys, .returned (-1) buf⟩
  | called {keys : KeySession} {reader : Reader} {b : Bytes} {nbytes : ℤ} :
      Stepped ⟨keys, reader⟩ (.call (some b) nbytes) ⟨keys, .waiting b⟩
  | spin {keys : KeySession} {b : Bytes} : Stepped ⟨keys, .waiting b⟩ .step ⟨keys, .waiting b⟩
  | found {keys : KeySession} {b : Bytes} (hready : keys.kernel.isKbdReady = true) :
      Stepped ⟨keys, .waiting b⟩ .step ⟨keys, .clearing b⟩
  | clear {keys : KeySession} {b : Bytes} :
      Stepped ⟨keys, .clearing b⟩ .step
        ⟨{ keys with kernel := keys.kernel.unsetKbdReady }, .fetching b⟩
  | fetch {keys : KeySession} {b : Bytes} :
      Stepped ⟨keys, .fetching b⟩ .step
        ⟨keys, .copying keys.kernel.getKbdBuf 0 (b.fill 0 128)⟩
  | finish {keys : KeySession} {t : Fin 3} {i : ℕ} {b : Bytes}
      (hbyte : (keys.kernel.termArr t).kbdOutBuf i = 0x0A) :
      Stepped ⟨keys, .copying t i b⟩ .step ⟨keys, .returned i (some b)⟩
  | copy {keys : KeySession} {t : Fin 3} {i : ℕ} {b : Bytes}
      (hbyte : (keys.kernel.termArr t).kbdOutBuf i ≠ 0x0A) :
      Stepped ⟨keys, .copying t i b⟩ .step
        ⟨keys, .copying t (i + 1) (Function.update b i ((keys.kernel.termArr t).kbdOutBuf i))⟩

/-- Every step is one of these. -/
theorem step_cases {s s' : ReadSession} {e : ReadEvent} (h : s.step e = some s') :
    Stepped s e s' := by
  obtain ⟨keys, reader⟩ := s
  cases e with
  | key sc =>
    cases h
    exact .key sc
  | call buf nbytes =>
    have hcall : Stepped ⟨keys, reader⟩ (.call buf nbytes) (call ⟨keys, reader⟩ buf nbytes) := by
      unfold call
      split
      · exact .refused
      · split
        · exact .refused
        · exact .called
    cases reader with
    | idle | returned =>
      cases h
      exact hcall
    | waiting | clearing | fetching | copying => cases h
  | step =>
    cases reader with
    | idle | returned => cases h
    | waiting b =>
      unfold step advance at h
      dsimp only at h
      split at h
      · rename_i hready
        cases h
        exact .found hready
      · cases h
        exact .spin
    | clearing b =>
      cases h
      exact .clear
    | fetching b =>
      cases h
      exact .fetch
    | copying t i b =>
      unfold step advance at h
      dsimp only at h
      split at h
      · rename_i hbyte
        cases h
        exact .finish hbyte
      · rename_i hbyte
        cases h
        exact .copy hbyte

/-! ## Without a key in between -/

/-- **The copy** ends at the first newline. -/
theorem run_copying (keys : KeySession) {t : Fin 3} {i n : ℕ} {b : Bytes}
    (hbefore : ∀ j, j < n → (keys.kernel.termArr t).kbdOutBuf (i + j) ≠ 0x0A)
    (hend : (keys.kernel.termArr t).kbdOutBuf (i + n) = 0x0A) :
    run step ⟨keys, .copying t i b⟩ (List.replicate (n + 1) .step)
      = some ⟨keys, .returned ↑(i + n)
          (some (b.copy i ((keys.kernel.termArr t).kbdOutBuf.drop i) n))⟩ := by
  induction n generalizing i b with
  | zero =>
    have hcopy : b.copy i ((keys.kernel.termArr t).kbdOutBuf.drop i) 0 = b := by
      funext j
      exact if_neg (fun hj => absurd hj.2 (Nat.not_lt.mpr hj.1))
    have hstep : step ⟨keys, .copying t i b⟩ .step
        = some ⟨keys, .returned i (some b)⟩ := if_pos hend
    rw [hcopy, List.replicate_one, run_cons, hstep]
    rfl
  | succ n ih =>
    have hstep : step ⟨keys, .copying t i b⟩ .step
        = some ⟨keys, .copying t (i + 1)
            (Function.update b i ((keys.kernel.termArr t).kbdOutBuf i))⟩ :=
      if_neg (hbefore 0 (Nat.succ_pos n))
    have hnext : ∀ j, i + 1 + j = i + (j + 1) := fun j => by omega
    rw [List.replicate_succ, run_cons, hstep, Option.bind_some,
      ih (fun j hj => by rw [hnext]; exact hbefore (j + 1) (Nat.succ_lt_succ hj))
        (by rw [hnext]; exact hend), hnext, ← Buffer.drop_drop]
    have hcopy := Buffer.copy_update b ((keys.kernel.termArr t).kbdOutBuf.drop i) i n
    rw [Buffer.drop_apply, Nat.add_zero] at hcopy
    rw [hcopy]

/-- **A call with a line ready**: the flag is cleared, and the line copied. -/
theorem run_call {k : Kernel} {b : Bytes} {nbytes : ℤ} {n : ℕ} (hnbytes : ¬ nbytes < 0)
    (hready : k.term.kbdReady = true)
    (hbefore : ∀ j, j < n → k.term.kbdOutBuf j ≠ 0x0A) (hend : k.term.kbdOutBuf n = 0x0A)
    (log : List (Fin 3 × UInt8)) :
    run step ⟨⟨k, log⟩, .idle⟩ (.call (some b) nbytes :: List.replicate (n + 4) .step)
      = some ⟨⟨k.unsetKbdReady, log⟩,
          .returned n (some ((b.fill 0 128).copy 0 k.term.kbdOutBuf n))⟩ := by
  have hcall : step ⟨⟨k, log⟩, .idle⟩ (.call (some b) nbytes) = some ⟨⟨k, log⟩, .waiting b⟩ :=
    congrArg some (if_neg hnbytes)
  have hwait : step ⟨⟨k, log⟩, .waiting b⟩ .step = some ⟨⟨k, log⟩, .clearing b⟩ := by
    have hflag : k.isKbdReady = true := hready
    show some (ReadSession.mk _ (if k.isKbdReady = true then _ else _)) = _
    rw [if_pos hflag]
  have hclear : step ⟨⟨k, log⟩, .clearing b⟩ .step
      = some ⟨⟨k.unsetKbdReady, log⟩, .fetching b⟩ := rfl
  have hfetch : step ⟨⟨k.unsetKbdReady, log⟩, .fetching b⟩ .step
      = some ⟨⟨k.unsetKbdReady, log⟩, .copying k.termFlag 0 (b.fill 0 128)⟩ := rfl
  -- Clearing the flag has left the buffer alone.
  have hout : (k.unsetKbdReady.termArr k.termFlag).kbdOutBuf = k.term.kbdOutBuf := by
    rw [unsetKbdReady, setTerm_termArr_self]
    rfl
  have hcopy := run_copying ⟨k.unsetKbdReady, log⟩ (t := k.termFlag) (i := 0) (n := n)
    (b := b.fill 0 128) (by simpa [hout] using hbefore) (by simpa [hout] using hend)
  rw [hout, Nat.zero_add, Buffer.drop_zero] at hcopy
  simp only [run_cons, List.replicate_succ, hcall, hwait, hclear, hfetch, Option.bind_some]
  exact hcopy

/-- **The steps of a call are `termRead`**: undisturbed, they come back with
what it returns. -/
theorem run_termRead {k : Kernel} {buf : Option Bytes} {nbytes : ℤ} {r : SysResult}
    (h : termRead k buf nbytes = .ok r) (log : List (Fin 3 × UInt8)) :
    ∃ n, run step ⟨⟨k, log⟩, .idle⟩ (.call buf nbytes :: List.replicate n .step)
      = some ⟨⟨r.kernel, log⟩, .returned r.ret r.buf⟩ := by
  cases buf with
  | none =>
    cases h
    exact ⟨0, rfl⟩
  | some b =>
    by_cases hneg : nbytes < 0
    · have hread : termRead k (some b) nbytes = .ok ⟨-1, some b, k⟩ := if_pos hneg
      rw [hread] at h
      cases h
      exact ⟨0, congrArg some (if_pos hneg)⟩
    · cases hready : k.term.kbdReady with
      | false =>
        rw [termRead_of_not_ready (Int.not_lt.mp hneg) hready] at h
        cases h
      | true =>
        have hread : termRead k (some b) nbytes
            = if lineLength k.term.kbdOutBuf = 128 then .error .overrun
              else .ok ⟨lineLength k.term.kbdOutBuf,
                some ((b.fill 0 128).copy 0 k.term.kbdOutBuf (lineLength k.term.kbdOutBuf)),
                k.unsetKbdReady⟩ := by
          unfold termRead
          dsimp only
          rw [if_neg hneg, if_neg (by rw [hready]; exact Bool.noConfusion), setTerm_term]
          rfl
        rw [hread] at h
        split at h
        · cases h
        · rename_i hline
          cases h
          have hlt : lineLength k.term.kbdOutBuf < 0 + 128 :=
            Nat.lt_of_le_of_ne (Scan.scan_le _ 0 128) hline
          refine ⟨_, run_call hneg hready (fun j hj => ?_) ?_ log⟩
          · exact beq_eq_false_iff_ne.mp (Scan.eq_false_of_lt_scan (Nat.zero_le j) hj)
          · exact beq_iff_eq.mp (Scan.eq_true_of_scan_lt hlt)

/-! ## The newline ahead of the copy -/

/-- **`term_read` finds its newline**: while it copies, there is one in the
buffer at the index it has come to or behind it. -/
def FindsNewline (s : ReadSession) : Prop :=
  match s.reader with
  | .copying t i _ => NewlineFrom (s.keys.kernel.termArr t).kbdOutBuf i
  | _ => True

instance (s : ReadSession) : Decidable s.FindsNewline := by
  unfold FindsNewline
  split
  · infer_instance
  · infer_instance

/-- **Then the copy ends** within the buffer, if no key comes. -/
theorem FindsNewline.copy_ends {keys : KeySession} {t : Fin 3} {i : ℕ} {b : Bytes}
    (h : FindsNewline ⟨keys, .copying t i b⟩) :
    ∃ n b', i + n < 128
      ∧ run step ⟨keys, .copying t i b⟩ (List.replicate (n + 1) .step)
        = some ⟨keys, .returned ↑(i + n) (some b')⟩ := by
  have hex : ∃ n, (keys.kernel.termArr t).kbdOutBuf (i + n) = 0x0A := by
    obtain ⟨j, -, hij, hj⟩ := h
    exact ⟨j - i, by rwa [Nat.add_sub_cancel' hij]⟩
  refine ⟨Nat.find hex, _, ?_,
    run_copying keys (fun j hj => Nat.find_min hex hj) (Nat.find_spec hex)⟩
  obtain ⟨j, hj128, hij, hj⟩ := h
  have hle : Nat.find hex ≤ j - i := Nat.find_min' hex (by rwa [Nat.add_sub_cancel' hij])
  omega

/-- **A step that keeps a newline ahead**: the buffer is taken on a terminal
that had an Enter, and an Enter on the terminal whose buffer is copied has a
line that reaches to the index of the copy, or a newline that Backspace or a
full line has left in `kbd_line_buf` from there on. -/
def KeepsNewline (s : ReadSession) (e : ReadEvent) : Prop :=
  match e, s.reader with
  | .step, .fetching _ => 0x0A ∈ onTerminal s.keys.log s.keys.kernel.termFlag
  | .key sc, .copying t i _ => s.keys.kernel.reached sc = some (t, 0x0A) →
      i ≤ (s.keys.kernel.termArr t).kbdLineCnt
        ∨ NewlineFrom (s.keys.kernel.termArr t).kbdLineBuf i
  | _, _ => True

instance (s : ReadSession) (e : ReadEvent) : Decidable (s.KeepsNewline e) := by
  unfold KeepsNewline
  split
  · infer_instance
  · infer_instance
  · infer_instance

/-! ## What a session keeps -/

/-- **What a session keeps** while the newline is found: the line inputs, a
newline in the output buffers of the terminals that had an Enter and in no
other, and the newline ahead. -/
structure Inv (s : ReadSession) : Prop where
  keys : s.keys.Inv
  entered : ∀ t, NewlineFrom (s.keys.kernel.termArr t).kbdOutBuf 0
    ↔ 0x0A ∈ onTerminal s.keys.log t
  finds : s.FindsNewline

theorem inv_start {k : Kernel} (h : k.OutBufsClear) : (start k).Inv where
  keys := KeySession.inv_start k
  entered t := by
    refine iff_of_false ?_ List.not_mem_nil
    rintro ⟨j, hj, -, hnewline⟩
    have hclear : ((start k).keys.kernel.termArr t).kbdOutBuf j = 0 := h t j hj
    rw [hclear] at hnewline
    cases hnewline
  finds := trivial

/-- **A key keeps the output buffers** as the log has them. -/
theorem Inv.entered_key {s : ReadSession} (h : s.Inv) (sc : UInt8) (u : Fin 3) :
    NewlineFrom ((s.keys.kernel.kbdIntrHandler sc).termArr u).kbdOutBuf 0
      ↔ 0x0A ∈ onTerminal (s.keys.log ++ (s.keys.kernel.reached sc).toList) u := by
  rw [kbdIntrHandler_kbdOutBuf]
  cases hreached : s.keys.kernel.reached sc with
  | none =>
    rw [if_neg (by simp), Option.toList_none, List.append_nil]
    exact h.entered u
  | some e =>
    obtain ⟨t, c⟩ := e
    rw [Option.toList_some, onTerminal_concat]
    by_cases hu : u = t
    · subst hu
      rw [Function.update_self]
      by_cases hnewline : c = 0x0A
      · rw [hnewline, if_pos rfl, newlineFrom_commitLine (h.keys u).count_le]
        exact iff_of_true (Or.inl (Nat.zero_le _)) List.mem_concat_self
      · rw [if_neg (by simp [hnewline]), h.entered u]
        simp [Ne.symm hnewline]
    · rw [Function.update_of_ne hu, if_neg (by simp [Ne.symm hu])]
      exact h.entered u

/-- **What a key makes of the newline ahead.** -/
theorem Inv.findsNewline_key {s : ReadSession} (h : s.Inv) (sc : UInt8)
    {log : List (Fin 3 × UInt8)} :
    FindsNewline ⟨⟨s.keys.kernel.kbdIntrHandler sc, log⟩, s.reader⟩
      ↔ s.KeepsNewline (.key sc) := by
  have hfinds := h.finds
  unfold FindsNewline KeepsNewline at *
  cases hreader : s.reader with
  | idle | waiting | clearing | fetching | returned => exact Iff.rfl
  | copying t i b =>
    rw [hreader] at hfinds
    dsimp only at hfinds ⊢
    rw [kbdIntrHandler_kbdOutBuf]
    by_cases hreached : s.keys.kernel.reached sc = some (t, 0x0A)
    · rw [if_pos hreached, newlineFrom_commitLine (h.keys t).count_le]
      exact ⟨fun h _ => h, fun h => h hreached⟩
    · rw [if_neg hreached]
      exact ⟨fun _ hr => absurd hr hreached, fun _ => hfinds⟩

/-- **A step finds a newline ahead exactly if it keeps one.** -/
theorem Inv.findsNewline_iff {s s' : ReadSession} {e : ReadEvent} (h : s.Inv)
    (hstep : s.step e = some s') : s'.FindsNewline ↔ s.KeepsNewline e := by
  cases step_cases hstep with
  | key sc => exact h.findsNewline_key sc
  | refused | called | spin | found | clear | finish => exact iff_of_true trivial trivial
  | @fetch keys b => exact h.entered keys.kernel.termFlag
  | copy hbyte =>
    refine iff_of_true ?_ trivial
    -- The newline is not the byte that is copied.
    obtain ⟨j, hj, hij, hnewline⟩ := h.finds
    exact ⟨j, hj, Nat.lt_of_le_of_ne hij (fun heq => hbyte (heq ▸ hnewline)), hnewline⟩

/-- **A step that keeps the newline ahead keeps the rest.** -/
theorem Inv.step {s s' : ReadSession} {e : ReadEvent} (h : s.Inv) (hstep : s.step e = some s')
    (hkeeps : s.KeepsNewline e) : s'.Inv := by
  have hfinds := (h.findsNewline_iff hstep).mpr hkeeps
  cases step_cases hstep with
  | key sc => exact ⟨h.keys.step (e := .key sc) rfl, h.entered_key sc, hfinds⟩
  | @clear keys b =>
    have hclear : keys.kernel.unsetKbdReady.HoldsInputs keys.inputs :=
      HoldsInputs.setTerm_keeps h.keys keys.kernel.termFlag
        ⟨rfl, rfl, rfl, fun hr => absurd hr Bool.false_ne_true⟩
    refine ⟨hclear, fun t => ?_, hfinds⟩
    show NewlineFrom (keys.kernel.unsetKbdReady.termArr t).kbdOutBuf 0 ↔ _
    rw [unsetKbdReady_kbdOutBuf]
    exact h.entered t
  | refused | called | spin | found | fetch | finish | copy => exact ⟨h.keys, h.entered, hfinds⟩

/-! ## Runs -/

/-- **When `term_read` finds its newline**: along a run of keys and calls the
newline is ahead of the copy, exactly if every buffer is taken on a terminal
that had an Enter and every Enter under a copy leaves a newline ahead of
it. -/
theorem newline_found_iff {k : Kernel} (h : k.OutBufsClear) (es : List ReadEvent) :
    Along step (fun _ _ s' => s'.FindsNewline) (start k) es
      ↔ Along step (fun s e _ => s.KeepsNewline e) (start k) es := by
  refine along_iff (I := Inv) ?_ ?_ (inv_start h) es
  · exact fun s e s' hinv hstep => hinv.findsNewline_iff hstep
  · exact fun s e s' hinv hstep hkeeps => hinv.step hstep hkeeps

/-- The letter a, Enter, and a call of `term_read` to its end. -/
theorem newline_found_line :
    (run step (start loadedKernel) [.key 0x1E, .key 0x1C, .call (some (fun _ => 0)) 128,
        .step, .step, .step, .step, .step]).isSome = true
      ∧ Along step (fun _ _ s' => s'.FindsNewline) (start loadedKernel)
        [.key 0x1E, .key 0x1C, .call (some (fun _ => 0)) 128, .step, .step, .step, .step,
          .step] :=
  ⟨by decide +kernel, (newline_found_iff (fun _ _ _ => rfl) _).mpr (by decide +kernel)⟩

/-- **The buffer of a terminal without a line** is taken when Alt and F2 come
between the ready test and `get_kbd_buf`. **A line is cut off** when Enter
comes again after the letter a is copied. -/
theorem newline_lost :
    loadedKernel.OutBufsClear
      ∧ ¬ Along step (fun _ _ s' => s'.FindsNewline) (start loadedKernel)
        [.key 0x1E, .key 0x1C, .key 0x38, .call (some (fun _ => 0)) 128, .step, .step,
          .key 0x3C, .step]
      ∧ ¬ Along step (fun _ _ s' => s'.FindsNewline) (start loadedKernel)
        [.key 0x1E, .key 0x1C, .call (some (fun _ => 0)) 128, .step, .step, .step, .step,
          .key 0x1C] :=
  ⟨fun _ _ _ => rfl, by decide +kernel, by decide +kernel⟩

end ReadSession

end KernelDesign
