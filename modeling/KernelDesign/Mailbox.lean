import KernelDesign.LineEditor

/-!
# The line between Enter and `term_read`

`kbd_out_buf` with `kbd_ready` is a mailbox for one line. Enter puts a line
into it, over a line no one has taken, and `term_read` takes the line out.
But the flag is also cleared by `remove_op`, and by `insert_op` when it
stores a character: whoever types on before the line is taken withdraws it,
and the reader waits for the next Enter.

A `MailSession` has the mailboxes beside it as they are meant, and
`mailbox_kept_iff` is that along a run they are what `term_read` finds
exactly if no key withdraws a line.
-/

namespace KernelDesign

open Kernel Transition

/-- **Keys and reads with the mailboxes beside them**: for each terminal the
line that was entered and not yet taken. -/
structure MailSession where
  session : KeySession
  mail : Fin 3 → Option (List UInt8)

/-- **A character that withdraws a line**: Backspace, and any character that
is stored. -/
def Withdraws (t : Term) (c : UInt8) : Prop :=
  c = 0x08 ∨ (c ≠ 0x0A ∧ c ≠ 0x09 ∧ t.kbdLineCnt < 127)

/-- It clears the flag. -/
theorem Withdraws.kbdReady {t : Term} {c : UInt8} (h : Withdraws t c) :
    (charEffect t c).kbdReady = false := by
  unfold charEffect
  obtain rfl | ⟨hnewline, htab, hroom⟩ := h
  · rw [if_pos rfl]
    split
    · rfl
    · rfl
  · by_cases hback : c = 0x08
    · rw [if_pos hback]
      split
      · rfl
      · rfl
    · rw [if_neg hback, if_neg (fun hfull => Nat.not_le.mpr hroom hfull.1), if_neg htab,
        if_neg hnewline]
      rfl

/-- **Every other character but the newline** leaves the flag alone. -/
theorem charEffect_kbdReady {t : Term} {c : UInt8} (hnewline : c ≠ 0x0A)
    (h : ¬ Withdraws t c) : (charEffect t c).kbdReady = t.kbdReady := by
  obtain ⟨hback, hstored⟩ := not_or.mp h
  unfold charEffect
  rw [if_neg hback]
  by_cases hfull : 127 ≤ t.kbdLineCnt ∧ c ≠ 0x0A
  · rw [if_pos hfull]
    rfl
  · have htab : c = 0x09 := by
      by_contra htab
      exact hstored ⟨hnewline, htab, Nat.not_le.mp (fun hle => hfull ⟨hle, hnewline⟩)⟩
    rw [if_neg hfull, if_pos htab]

namespace MailSession

/-- The session after `kbd_init`: no line has been entered. -/
def start (k : Kernel) : MailSession := ⟨KeySession.start k, fun _ => none⟩

/-- **The mailboxes after an event**: Enter puts the text of its terminal
into the mailbox, and a read that is not refused takes the line out. -/
def mailAfter (s : MailSession) : KeyEvent → Fin 3 → Option (List UInt8)
  | .key sc =>
    match s.session.kernel.reached sc with
    | none => s.mail
    | some (t, c) =>
      if c = 0x0A then Function.update s.mail t (some (s.session.text t)) else s.mail
  | .read buf nbytes =>
    if buf.isSome ∧ 0 ≤ nbytes then Function.update s.mail s.session.kernel.termFlag none
    else s.mail

section

variable {s : MailSession} {sc : UInt8} {t u : Fin 3} {c : UInt8}

/-- Enter is for the mailbox of its terminal. -/
theorem mailAfter_enter (h : s.session.kernel.reached sc = some (t, 0x0A)) :
    s.mailAfter (.key sc) = Function.update s.mail t (some (s.session.text t)) := by
  simp [mailAfter, h]

/-- Other keys are for none. -/
theorem mailAfter_key (h : s.session.kernel.reached sc ≠ some (u, 0x0A)) :
    s.mailAfter (.key sc) u = s.mail u := by
  cases hreached : s.session.kernel.reached sc with
  | none => simp [mailAfter, hreached]
  | some e =>
    obtain ⟨t, c⟩ := e
    simp only [mailAfter, hreached]
    split
    · rename_i hnewline
      refine Function.update_of_ne (fun hu => h ?_) _ _
      rw [hreached, hu, hnewline]
    · rfl

/-- A read empties the mailbox of the terminal on display. -/
theorem mailAfter_read (s : MailSession) (b : Bytes) {nbytes : ℤ} (h : 0 ≤ nbytes) :
    s.mailAfter (.read (some b) nbytes)
      = Function.update s.mail s.session.kernel.termFlag none := by
  simp [mailAfter, h]

end

/-- A step of the session. -/
def step (s : MailSession) (e : KeyEvent) : Option MailSession :=
  (s.session.step e).map (fun s' => ⟨s', s.mailAfter e⟩)

/-- **The mailboxes are what `term_read` finds**: with terminal `t` on
display it takes the line in the mailbox of `t`, and waits if there is
none. -/
def MailKept (s : MailSession) : Prop :=
  ∀ t b (nbytes : ℤ), 0 ≤ nbytes →
    match s.mail t with
    | some line =>
      ∃ r, termRead { s.session.kernel with termFlag := t } (some b) nbytes = .ok r
        ∧ Takes b line r
    | none => termRead { s.session.kernel with termFlag := t } (some b) nbytes = .error .wait

/-- **An event that withdraws no line**: no read does, and a key only if its
character clears the flag of a terminal with a line in its mailbox. -/
def WithdrawsNothing (s : MailSession) : KeyEvent → Prop
  | .key sc => ∀ t c, s.session.kernel.reached sc = some (t, c) →
      (s.mail t).isSome → ¬ Withdraws (s.session.kernel.termArr t) c
  | .read _ _ => True

/-! ## One step -/

/-- **The flag and the buffer of a terminal are its mailbox.** -/
def Posts (t : Term) : Option (List UInt8) → Prop
  | some line => t.kbdReady = true ∧ HoldsLine t.kbdOutBuf line ∧ IsKbdLine line
  | none => t.kbdReady = false

theorem Posts.congr {t t' : Term} {mail : Option (List UInt8)} (h : Posts t mail)
    (hready : t'.kbdReady = t.kbdReady) (hout : t'.kbdOutBuf = t.kbdOutBuf) :
    Posts t' mail := by
  cases mail with
  | none => exact hready.trans h
  | some line =>
    obtain ⟨hr, hline, hshort⟩ := h
    exact ⟨hready.trans hr, hout ▸ hline, hshort⟩

/-- **What a session keeps** while no line is withdrawn. -/
structure Inv (s : MailSession) : Prop where
  session : s.session.Inv
  posts : ∀ t, Posts (s.session.kernel.termArr t) (s.mail t)

theorem inv_start (k : Kernel) : (start k).Inv := ⟨KeySession.inv_start k, fun _ => rfl⟩

/-- Then `term_read` finds the mailboxes. -/
theorem Inv.mailKept {s : MailSession} (h : s.Inv) : s.MailKept := by
  intro t b nbytes hnbytes
  have hposts := h.posts t
  cases hmail : s.mail t with
  | none =>
    rw [hmail] at hposts
    exact termRead_of_not_ready hnbytes hposts
  | some line =>
    rw [hmail] at hposts
    obtain ⟨hready, hout, hline⟩ := hposts
    obtain ⟨r, hread, htakes, -⟩ :=
      termRead_of_ready (k := { s.session.kernel with termFlag := t }) hnbytes hready hout hline
    exact ⟨r, hread, htakes⟩

/-- A cleared flag is not what a mailbox with a line needs. -/
theorem not_mailKept {s : MailSession} {t : Fin 3} {line : List UInt8}
    (hmail : s.mail t = some line) (hready : (s.session.kernel.termArr t).kbdReady = false) :
    ¬ s.MailKept := by
  intro hkept
  have hread := hkept t (fun _ => 0) 0 (le_refl 0)
  rw [hmail] at hread
  obtain ⟨r, hread, -⟩ := hread
  have hwait : termRead { s.session.kernel with termFlag := t } (some (fun _ => 0)) 0
      = .error .wait := termRead_of_not_ready (le_refl 0) hready
  rw [hwait] at hread
  cases hread

/-- The text of a terminal is a line of the keyboard. -/
theorem isKbdLine_text {s : KeySession} (h : s.Inv) (t : Fin 3) : IsKbdLine (s.text t) := by
  rw [← KeySession.inputs_pending]
  exact (h t).within.pending

/-- **A key that withdraws nothing** leaves every terminal its mailbox. -/
theorem Inv.posts_key {s : MailSession} (h : s.Inv) {sc : UInt8}
    (hkey : s.WithdrawsNothing (.key sc)) (u : Fin 3) :
    Posts ((s.session.kernel.kbdIntrHandler sc).termArr u) (s.mailAfter (.key sc) u) := by
  have hposts := h.posts u
  by_cases hfor : ∃ c, s.session.kernel.reached sc = some (u, c)
  · obtain ⟨c, hreached⟩ := hfor
    by_cases hnewline : c = 0x0A
    · subst hnewline
      obtain ⟨hout, hready, -⟩ := h.session.enter hreached
      rw [mailAfter_enter hreached, Function.update_self]
      exact ⟨hready, hout, isKbdLine_text h.session u⟩
    · obtain ⟨v, hsame, heffect⟩ := kbdIntrHandler_of_reached hreached
      rw [mailAfter_key (by simp [hreached, hnewline]), heffect]
      by_cases hwithdraws : Withdraws v c
      · -- Then the mailbox is empty.
        have hnone : s.mail u = none := by
          by_contra hsome
          refine hkey u c hreached (Option.isSome_iff_ne_none.mpr hsome) ?_
          rwa [Withdraws, ← hsame.count]
        rw [hnone]
        exact hwithdraws.kbdReady
      · exact hposts.congr ((charEffect_kbdReady hnewline hwithdraws).trans hsame.ready)
          ((charEffect_kbdOutBuf hnewline).trans hsame.outBuf)
  · have hsame : SameLine _ ((s.session.kernel.kbdIntrHandler sc).termArr u) :=
      kbdIntrHandler_sameLine (fun t c hreached hu => hfor ⟨c, hu ▸ hreached⟩)
    rw [mailAfter_key (fun hreached => hfor ⟨0x0A, hreached⟩)]
    exact hposts.congr hsame.ready hsame.outBuf

/-- **A read** takes the line out, or is refused. -/
theorem Inv.posts_read {s : MailSession} (h : s.Inv) {buf : Option Bytes} {nbytes : ℤ}
    {r : SysResult} (hread : termRead s.session.kernel buf nbytes = .ok r) (u : Fin 3) :
    Posts (r.kernel.termArr u) (s.mailAfter (.read buf nbytes) u) := by
  have hposts := h.posts u
  cases buf with
  | none =>
    cases hread
    exact hposts
  | some b =>
    by_cases hnbytes : 0 ≤ nbytes
    · have hself := h.posts s.session.kernel.termFlag
      rw [mailAfter_read s b hnbytes]
      cases hmail : s.mail s.session.kernel.termFlag with
      | none =>
        rw [hmail] at hself
        rw [termRead_of_not_ready hnbytes hself] at hread
        cases hread
      | some line =>
        rw [hmail] at hself
        obtain ⟨hready, hout, hline⟩ := hself
        obtain ⟨r', hread', -, hkernel⟩ := termRead_of_ready hnbytes hready hout hline
        rw [hread'] at hread
        cases hread
        rw [hkernel]
        by_cases hu : u = s.session.kernel.termFlag
        · rw [hu, Function.update_self, setTerm_termArr_self]
          rfl
        · rw [Function.update_of_ne hu, setTerm_termArr_of_ne _ _ hu]
          exact hposts
    · have hrefused : termRead s.session.kernel (some b) nbytes
          = .ok ⟨-1, some b, s.session.kernel⟩ := if_pos (Int.not_le.mp hnbytes)
      have hmail : s.mailAfter (.read (some b) nbytes) = s.mail :=
        if_neg (fun hand => hnbytes hand.2)
      rw [hrefused] at hread
      cases hread
      rw [hmail]
      exact hposts

/-- **An event that withdraws nothing keeps the mailboxes.** -/
theorem Inv.step {s s' : MailSession} {e : KeyEvent} (h : s.Inv) (hstep : s.step e = some s')
    (hnothing : s.WithdrawsNothing e) : s'.Inv := by
  obtain ⟨session', hsession, rfl⟩ := Option.map_eq_some_iff.mp hstep
  refine ⟨h.session.step hsession, fun u => ?_⟩
  cases e with
  | key sc =>
    cases hsession
    exact h.posts_key hnothing u
  | read buf nbytes =>
    rw [KeySession.step] at hsession
    split at hsession
    · rename_i r hread
      cases hsession
      exact h.posts_read hread u
    · cases hsession

/-- **An event that withdraws a line** leaves a reader waiting for it. -/
theorem not_mailKept_of_withdraws {s s' : MailSession} {e : KeyEvent}
    (hstep : s.step e = some s') (hsome : ¬ s.WithdrawsNothing e) : ¬ s'.MailKept := by
  obtain ⟨session', hsession, rfl⟩ := Option.map_eq_some_iff.mp hstep
  cases e with
  | read buf nbytes => exact absurd trivial hsome
  | key sc =>
    cases hsession
    simp only [WithdrawsNothing, not_forall, not_not] at hsome
    obtain ⟨t, c, hreached, hmail, hwithdraws⟩ := hsome
    obtain ⟨line, hline⟩ := Option.isSome_iff_exists.mp hmail
    obtain ⟨u, hsame, heffect⟩ := kbdIntrHandler_of_reached hreached
    have hnewline : c ≠ 0x0A := by
      rintro rfl
      obtain hback | ⟨hne, -⟩ := hwithdraws
      · cases hback
      · exact hne rfl
    have hkept : s.mailAfter (.key sc) t = some line := by
      rw [mailAfter_key (by simp [hreached, hnewline]), hline]
    refine not_mailKept hkept ?_
    show ((s.session.kernel.kbdIntrHandler sc).termArr t).kbdReady = false
    rw [heffect]
    refine Withdraws.kbdReady ?_
    rwa [Withdraws, hsame.count]

/-! ## Runs -/

/-- **When no line is lost**: along a run of keys and reads the mailboxes are
what `term_read` finds, exactly if no key of it is a Backspace or a stored
character on a terminal whose line has not been taken. -/
theorem mailbox_kept_iff (k : Kernel) (es : List KeyEvent) :
    Along step (fun _ _ s' => s'.MailKept) (start k) es
      ↔ Along step (fun s e _ => s.WithdrawsNothing e) (start k) es := by
  refine along_iff (fun s e s' h hstep => ⟨fun hkept => ?_, fun hnothing => ?_⟩)
    (fun s e s' h hstep hnothing => Inv.step h hstep hnothing) (inv_start k) es
  · by_contra hsome
    exact not_mailKept_of_withdraws hstep hsome hkept
  · exact (Inv.step h hstep hnothing).mailKept

/-- **Typing on withdraws a line**: after `a`, Enter and `b` the line `a` was
entered and not taken, and a read waits. -/
theorem mailbox_type_ahead :
    ∃ s, run step (start loadedKernel) [.key 0x1E, .key 0x1C, .key 0x30] = some s
      ∧ s.mail 0 = some [0x61] ∧ s.session.kernel.termFlag = 0
      ∧ termRead s.session.kernel (some (fun _ => 0)) 128 = .error .wait ∧ ¬ s.MailKept := by
  have hstate : (run step (start loadedKernel) [.key 0x1E, .key 0x1C, .key 0x30]).map
      (fun s => (s.mail 0, s.session.kernel.termFlag,
        (s.session.kernel.termArr 0).kbdReady)) = some (some [0x61], 0, false) := by
    decide +kernel
  obtain ⟨s, hrun, hs⟩ := Option.map_eq_some_iff.mp hstate
  simp only [Prod.mk.injEq] at hs
  obtain ⟨hmail, hflag, hready⟩ := hs
  refine ⟨s, hrun, hmail, hflag, termRead_of_not_ready (by decide) ?_,
    not_mailKept hmail hready⟩
  rw [Kernel.term, hflag]
  exact hready

end MailSession

end KernelDesign
