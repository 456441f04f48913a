import KernelDesign.FileSystem

/-!
# Names and directory entries

`read_dentry_by_name` compares the name it is given with the names of the
slots, 32 bytes of each at most, and takes the first slot of the 63 that
compares equal. The directory that `fs_dir_read` lists is the slots below
`dir_count`, and a name there ends at its first NUL or at 32 bytes.

The two readings of a name differ in two ways. The comparison never sees
what follows the first 32 bytes of the name asked for, so a longer name
finds the entry named by its first 32 bytes; and the loop runs to
`MAX_DENTRY_NUM`, so it finds what an unused slot still holds.
`readDentryByName_agrees_iff` is the exact extent of both.
-/

namespace KernelDesign

open Words

/-! ## Names -/

/-- **The name of an entry**: its bytes up to the first NUL, and at most
32. -/
def Dentry.text (d : Dentry) : List UInt8 := d.name.first (strlen d.name 32)

theorem Dentry.length_text_le (d : Dentry) : d.text.length ≤ 32 := by
  rw [Dentry.text, Buffer.length_first]
  exact strlen_le d.name 32

/-! ## The comparison -/

/-- An `int8_t` is determined by its byte, and the byte by it. -/
theorem int8Of_sub_eq_zero {a b : UInt8} : int8Of a - int8Of b = 0 ↔ a = b := by
  constructor
  · intro h
    have ha := a.toNat_lt
    have hb := b.toNat_lt
    have hmod : int8Of a % (2 ^ 8 : ℕ) = int8Of b % (2 ^ 8 : ℕ) := by
      rw [Int.sub_eq_zero.mp h]
    rw [int8Of, int8Of, signed_emod, signed_emod] at hmod
    exact UInt8.toNat_inj.mp (by omega)
  · rintro rfl
    exact Int.sub_self _

/-- **`strncmp` returns 0** when the strings agree up to the first NUL of
the first one, or as far as it compares. -/
theorem strncmp_eq_zero_iff {s₁ s₂ : Bytes} {i n : ℕ} :
    strncmp s₁ s₂ i n = 0
      ↔ ∀ j, j < n → (∀ l, l < j → s₁ (i + l) ≠ 0) → s₁ (i + j) = s₂ (i + j) := by
  induction n generalizing i with
  | zero => simp [strncmp]
  | succ n ih =>
    unfold strncmp
    split
    · -- The loop ends here, at a difference or at a NUL.
      rename_i hstop
      rw [int8Of_sub_eq_zero]
      constructor
      · intro heq j _ hbefore
        cases j with
        | zero => exact heq
        | succ j =>
          have hzero := hbefore 0 (Nat.succ_pos j)
          obtain hne | hnul := hstop
          · exact absurd heq hne
          · exact absurd hnul hzero
      · exact fun h => h 0 (Nat.succ_pos n) (fun l hl => absurd hl (Nat.not_lt_zero l))
    · rename_i hgo
      rw [not_or, not_not] at hgo
      obtain ⟨heq, hne⟩ := hgo
      rw [ih]
      constructor
      · intro h j hj hbefore
        cases j with
        | zero => exact heq
        | succ j =>
          have hnext := h j (Nat.lt_of_succ_lt_succ hj) (fun l hl => by
            have hl' := hbefore (l + 1) (Nat.succ_lt_succ hl)
            rwa [show i + (l + 1) = i + 1 + l by omega] at hl')
          rwa [show i + 1 + j = i + (j + 1) by omega] at hnext
      · intro h j hj hbefore
        rw [show i + 1 + j = i + (j + 1) by omega]
        refine h (j + 1) (Nat.succ_lt_succ hj) (fun l hl => ?_)
        cases l with
        | zero => exact hne
        | succ l =>
          have hl' := hbefore l (Nat.lt_of_succ_lt_succ hl)
          rwa [show i + 1 + l = i + (l + 1) by omega] at hl'

/-- **Comparing with an entry asks for its whole name**, and for no more
than 32 bytes of the other. -/
theorem strncmp_name_eq_zero_iff (d : Dentry) (s : CString) :
    strncmp d.name s.bytes 0 32 = 0 ↔ d.text = s.text.take 32 := by
  have hcut : s.text.take 32 = s.bytes.first (min 32 s.length) :=
    Buffer.take_first s.bytes 32 s.length
  have hle := strlen_le d.name 32
  rw [strncmp_eq_zero_iff, hcut, Dentry.text]
  simp only [Nat.zero_add]
  constructor
  · intro h
    -- Below its NUL the entry agrees with the string.
    have hbelow : ∀ j, j < strlen d.name 32 → d.name j = s.bytes j := fun j hj =>
      h j (Nat.lt_of_lt_of_le hj hle)
        (fun l hl => ne_zero_of_lt_strlen (Nat.lt_trans hl hj))
    have hlong : strlen d.name 32 ≤ s.length := by
      by_contra hlt
      have hj := Nat.lt_of_not_le hlt
      exact ne_zero_of_lt_strlen hj ((hbelow _ hj).trans s.nul)
    have hlength : strlen d.name 32 = min 32 s.length := by
      obtain hshort | hfull := Nat.lt_or_eq_of_le hle
      · -- The NUL of the entry is one of the string.
        have hnul := h _ hshort (fun l hl => ne_zero_of_lt_strlen hl)
        rw [eq_zero_of_strlen_lt hshort] at hnul
        have hend : s.length ≤ strlen d.name 32 := by
          by_contra hlt
          exact s.ne_zero _ (Nat.lt_of_not_le hlt) hnul.symm
        omega
      · omega
    rw [← hlength]
    exact Buffer.first_congr hbelow
  · intro h j hj hbefore
    have hlength : strlen d.name 32 = min 32 s.length := by
      simpa using congrArg List.length h
    have hat : ∀ l, l < strlen d.name 32 → d.name l = s.bytes l := fun l hl => by
      rw [← hlength] at h
      exact Buffer.eq_of_first_eq h hl
    obtain hin | hout := Nat.lt_or_ge j (strlen d.name 32)
    · exact hat j hin
    · obtain hlt | heq := Nat.lt_or_eq_of_le hout
      · exact absurd (eq_zero_of_strlen_lt (Nat.lt_trans hlt hj)) (hbefore _ hlt)
      · have hend : s.length = j := by omega
        have hstop : strlen d.name 32 < 32 := heq ▸ hj
        have hnul := eq_zero_of_strlen_lt hstop
        rw [heq] at hnul
        rw [hnul, ← hend, s.nul]

/-! ## The lookup -/

variable {fs : FileSystem} {s : CString} {d : Dentry}

/-- Slot `i` compares equal to the name. -/
def FileSystem.Matches (fs : FileSystem) (s : CString) (i : Fin 63) : Prop :=
  (fs.bootBlock.direntries i).text = s.text.take 32

/-- **The first slot that compares equal**, of those from `lo` on. -/
structure FileSystem.FirstMatch (fs : FileSystem) (s : CString) (lo : ℕ) (i : Fin 63) :
    Prop where
  ge_lo : lo ≤ i
  found : fs.Matches s i
  first : ∀ l : Fin 63, lo ≤ l → l < i → ¬ fs.Matches s l

theorem FileSystem.direntry_of_fin (fs : FileSystem) (i : Fin 63) :
    fs.direntry i = fs.bootBlock.direntries i := dif_pos i.isLt

/-- **The loop of the lookup**: it ends at the first match, or leaves the
entry it was to fill alone. -/
theorem readDentryByNameLoop_cases (fs : FileSystem) (s : CString) (d : Dentry) {i n : ℕ}
    (hin : i + n = 63) :
    (∃ j, fs.FirstMatch s i j
        ∧ (readDentryByNameLoop fs s.bytes (some d) i n).ret = 0
        ∧ (readDentryByNameLoop fs s.bytes (some d) i n).dentry
            = some (fs.bootBlock.direntries j))
      ∨ ((∀ j : Fin 63, i ≤ j → ¬ fs.Matches s j)
        ∧ (readDentryByNameLoop fs s.bytes (some d) i n).ret = -1
        ∧ (readDentryByNameLoop fs s.bytes (some d) i n).dentry = some d) := by
  induction n generalizing i with
  | zero => exact Or.inr ⟨fun j hj => by omega, rfl, rfl⟩
  | succ n ih =>
    let here : Fin 63 := ⟨i, by omega⟩
    have hslot : fs.direntry i = fs.bootBlock.direntries here := fs.direntry_of_fin here
    have htest : strncmp (fs.direntry i).name s.bytes 0 32 = 0 ↔ fs.Matches s here := by
      rw [hslot]
      exact strncmp_name_eq_zero_iff _ s
    by_cases hm : fs.Matches s here
    · have hindex : readDentryByIndex fs i (some d)
          = ⟨0, some (fs.bootBlock.direntries here), [.dirSlot i]⟩ := by
        rw [readDentryByIndex, hslot]
        exact if_neg (not_or_intro (by omega) Bool.false_ne_true)
      simp only [readDentryByNameLoop, if_pos (htest.mpr hm), hindex]
      refine Or.inl ⟨here, ⟨le_refl i, hm, fun l hl hlt => absurd hlt ?_⟩, by decide, rfl⟩
      exact Nat.not_lt.mpr hl
    · have hne : ¬ strncmp (fs.direntry i).name s.bytes 0 32 = 0 := fun h => hm (htest.mp h)
      simp only [readDentryByNameLoop, if_neg hne]
      obtain ⟨j, hj, hret, hdentry⟩ | ⟨hnone, hret, hdentry⟩ := ih (i := i + 1) (by omega)
      · refine Or.inl ⟨j, ⟨Nat.le_of_succ_le hj.ge_lo, hj.found, fun l hl hlt => ?_⟩, hret,
          hdentry⟩
        obtain heq | hgt := Nat.eq_or_lt_of_le hl
        · exact (Fin.ext heq : here = l) ▸ hm
        · exact hj.first l hgt hlt
      · refine Or.inr ⟨fun j hj => ?_, hret, hdentry⟩
        obtain heq | hgt := Nat.eq_or_lt_of_le hj
        · exact (Fin.ext heq : here = j) ▸ hm
        · exact hnone j hgt

/-- **The lookup of a name**: the first match, or -1 and nothing filled
in. -/
theorem readDentryByName_cases (fs : FileSystem) (s : CString) (d : Dentry)
    (hpos : 0 < s.length) :
    (∃ j, fs.FirstMatch s 0 j ∧ (readDentryByName fs (some s.bytes) (some d)).ret = 0
        ∧ (readDentryByName fs (some s.bytes) (some d)).dentry
            = some (fs.bootBlock.direntries j))
      ∨ ((∀ j, ¬ fs.Matches s j)
        ∧ (readDentryByName fs (some s.bytes) (some d)).ret = -1
        ∧ (readDentryByName fs (some s.bytes) (some d)).dentry = some d) := by
  have heq : readDentryByName fs (some s.bytes) (some d)
      = readDentryByNameLoop fs s.bytes (some d) 0 63 := if_neg (s.ne_zero 0 hpos)
  rw [heq]
  obtain h | ⟨hnone, h⟩ := readDentryByNameLoop_cases fs s d (i := 0) (n := 63) rfl
  · exact Or.inl h
  · exact Or.inr ⟨fun j => hnone j (Nat.zero_le _), h⟩

/-! ## The listing -/

/-- **Slot `i` is listed under the name**: it is below `dir_count`, and its
name is the whole of it. -/
structure FileSystem.Lists (fs : FileSystem) (s : CString) (i : Fin 63) : Prop where
  listed : (i : ℤ) < fs.bootBlock.dirCount
  named : (fs.bootBlock.direntries i).text = s.text

/-- **A lookup agrees with the listing**: it succeeds when an entry is
listed under the name and fills in the first such entry, and otherwise
returns -1 and fills in nothing. -/
structure LookupAgrees (fs : FileSystem) (s : CString) (d : Dentry) : Prop where
  succeeds : (readDentryByName fs (some s.bytes) (some d)).ret = 0 ↔ ∃ i, fs.Lists s i
  found : (readDentryByName fs (some s.bytes) (some d)).ret = 0 →
    ∃ i, fs.Lists s i ∧ (∀ l, l < i → ¬ fs.Lists s l)
      ∧ (readDentryByName fs (some s.bytes) (some d)).dentry
          = some (fs.bootBlock.direntries i)
  fails : (readDentryByName fs (some s.bytes) (some d)).ret ≠ 0 →
    (readDentryByName fs (some s.bytes) (some d)).ret = -1
      ∧ (readDentryByName fs (some s.bytes) (some d)).dentry = some d

/-- A name of at most 32 bytes is compared whole. -/
theorem FileSystem.matches_of_short (hshort : s.length ≤ 32) (i : Fin 63) :
    fs.Matches s i ↔ (fs.bootBlock.direntries i).text = s.text := by
  rw [FileSystem.Matches, List.take_of_length_le (by rw [CString.length_text]; exact hshort)]

/-- A name that is listed has at most 32 bytes. -/
theorem FileSystem.Lists.length_le {i : Fin 63} (h : fs.Lists s i) : s.length ≤ 32 := by
  have hle := (fs.bootBlock.direntries i).length_text_le
  rwa [h.named, CString.length_text] at hle

/-- A slot that is listed compares equal. -/
theorem FileSystem.Lists.matches {i : Fin 63} (h : fs.Lists s i) : fs.Matches s i :=
  (fs.matches_of_short h.length_le i).mpr h.named

/-- **When a lookup agrees with the listing**, for a name that is not
empty: if the name has at most 32 bytes, exactly when an entry below
`dir_count` has it or no slot from there on does; if it is longer, exactly
when no slot has the name of its first 32 bytes. -/
theorem readDentryByName_agrees_iff (fs : FileSystem) (s : CString) (d : Dentry)
    (hpos : 0 < s.length) :
    LookupAgrees fs s d
      ↔ (s.length ≤ 32 →
          (∃ i : Fin 63, fs.bootBlock.dirCount ≤ i
            ∧ (fs.bootBlock.direntries i).text = s.text) → ∃ i, fs.Lists s i)
        ∧ (32 < s.length →
          ∀ i, (fs.bootBlock.direntries i).text ≠ s.text.take 32) := by
  obtain ⟨j, hj, hret, hdentry⟩ | ⟨hnone, hret, hdentry⟩ := readDentryByName_cases fs s d hpos
  · constructor
    · intro h
      obtain ⟨i, hi⟩ := h.succeeds.mp hret
      exact ⟨fun _ _ => ⟨i, hi⟩, fun hlong => absurd hi.length_le (Nat.not_le.mpr hlong)⟩
    · rintro ⟨hshort, hlong⟩
      have hle : s.length ≤ 32 := by
        by_contra hgt
        exact hlong (Nat.lt_of_not_le hgt) j hj.found
      have hnamed := (fs.matches_of_short hle j).mp hj.found
      -- The first match is below the count, as there is one below it.
      have hlists : fs.Lists s j := by
        obtain hlt | hge := Int.lt_or_le (j : ℤ) fs.bootBlock.dirCount
        · exact ⟨hlt, hnamed⟩
        · obtain ⟨i, hi⟩ := hshort hle ⟨j, hge, hnamed⟩
          have hnot : ¬ i < j := fun hlt => hj.first i (Nat.zero_le _) hlt hi.matches
          have hlisted := hi.listed
          exact ⟨by omega, hnamed⟩
      refine ⟨iff_of_true hret ⟨j, hlists⟩, fun _ => ⟨j, hlists, fun l hl h => ?_, hdentry⟩,
        fun hne => absurd hret hne⟩
      exact hj.first l (Nat.zero_le _) hl h.matches
  · have hne : (readDentryByName fs (some s.bytes) (some d)).ret ≠ 0 := by
      rw [hret]
      decide
    have hunlisted : ∀ i, ¬ fs.Lists s i := fun i h => hnone i h.matches
    refine iff_of_true ?_ ⟨fun hle hex => ?_, fun _ i => hnone i⟩
    · exact ⟨iff_of_false hne (fun ⟨i, hi⟩ => hunlisted i hi), fun h => absurd h hne,
        fun _ => ⟨hret, hdentry⟩⟩
    · obtain ⟨i, -, hi⟩ := hex
      exact absurd ((fs.matches_of_short hle i).mpr hi) (hnone i)

/-! ## A name of 32 bytes -/

/-- The string of `n` times the letter x. -/
def xs (n : ℕ) : CString where
  bytes j := if j < n then 0x78 else 0
  length := n
  ne_zero j hj := by simp [hj]
  nul := by simp

/-- A directory with one entry, whose name is the letter x 32 times. -/
def longNameFs : FileSystem :=
  { bootBlock := ⟨1, 1, 1, fun i =>
      if i.val = 0 then ⟨fun _ => 0x78, 2, 0⟩ else unsetDentry⟩
    afterBootBlock := unsetDentry
    image := fun _ => 0
    dirCount := 0
    dentryGlobal := unsetDentry }

/-- The lookup of the name of the entry agrees with the listing. -/
theorem readDentryByName_listed : LookupAgrees longNameFs (xs 32) unsetDentry := by
  refine (readDentryByName_agrees_iff longNameFs (xs 32) unsetDentry (by decide)).mpr
    ⟨fun _ _ => ⟨0, by decide, ?_⟩, fun hlong => absurd hlong (by decide)⟩
  decide +kernel

/-- **A longer name finds the entry as well**: the name of 33 letters names
no entry, and its lookup succeeds. -/
theorem readDentryByName_long :
    longNameFs.bootBlock.dirCount = 1 ∧ ¬ LookupAgrees longNameFs (xs 33) unsetDentry := by
  refine ⟨rfl, fun h => ?_⟩
  obtain ⟨i, hi⟩ := h.succeeds.mp (by decide +kernel)
  exact absurd hi.length_le (by decide)

end KernelDesign
