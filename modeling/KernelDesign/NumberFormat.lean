import KernelDesign.Library.Memory
import KernelDesign.Library.Numerals
import KernelDesign.Strings

/-!
# Numbers as text

`itoa` and `strrev` of `lib.c`, and the four conversions of `printf` that
print a number. `itoa` stores the digits from the least significant one up,
closes the string with a NUL and turns it round in place; `printf` gives it
a local buffer. What comes out is the numeral of the number
(`itoa_spec`), and no store leaves the buffer.

The loop of `itoa` ends after at most 32 digits in every base from 2 on. The
model stops there with no result, as it has to in base 1.
-/

namespace KernelDesign

open Words

/-! ## `strrev` and `itoa` -/

/-- The bytes from an address on. -/
def bytesAt (m : Memory UInt8) (a : ℕ) : Bytes := m.cells.drop a

/-- The loop of `strrev` with `n` steps left. -/
def strrevLoop (s : ℕ) : ℕ → ℕ → ℕ → Memory UInt8 → Memory UInt8
  | 0, _, _, m => m
  | n + 1, beg, last, m =>
    if beg < last then
      let tmp := m.cells (s + last)
      strrevLoop s n (beg + 1) (last - 1)
        ((m.store (s + last) (m.cells (s + beg))).store (s + beg) tmp)
    else m

/-- **`strrev`** of the string at `s`, in an object of `size` bytes. -/
def strrev (m : Memory UInt8) (s size : ℕ) : Memory UInt8 :=
  let len := strlen (bytesAt m s) size
  strrevLoop s len 0 (len - 1) m

/-- `lookup`. -/
def lookup : List UInt8 := ascii "0123456789ABCDEFGHIJKLMNOPQRSTUVWXYZ"

/-- The character of a digit. -/
def digitChar (d : ℕ) : UInt8 := lookup.getD d 0

/-- The loop of `itoa` with `n` steps left, and where it ends. -/
def itoaLoop (radix : ℕ) : ℕ → ℕ → ℕ → Memory UInt8 → Option (Memory UInt8 × ℕ)
  | 0, _, _, _ => none
  | n + 1, newval, newbuf, m =>
    if 0 < newval then
      itoaLoop radix n (newval / radix) (newbuf + 1)
        (m.store newbuf (digitChar (newval % radix)))
    else some (m, newbuf)

/-- **`itoa`** into the buffer at `buf`, of `size` bytes. -/
def itoa (m : Memory UInt8) (value : UInt32) (buf size radix : ℕ) : Option (Memory UInt8) :=
  if value = 0 then some ((m.store buf 0x30).store (buf + 1) 0)
  else
    (itoaLoop radix 33 value.toNat buf m).map (fun r => strrev (r.1.store r.2 0) buf size)

/-! ## What `strrev` does -/

/-- **The loop turns a range round** and leaves the rest alone. -/
theorem strrevLoop_cells (s n beg last : ℕ) (m : Memory UInt8) (h : last < beg + n + 1)
    (j : ℕ) :
    (strrevLoop s n beg last m).cells (s + j)
      = if beg ≤ j ∧ j ≤ last then m.cells (s + (beg + last - j)) else m.cells (s + j) := by
  induction n generalizing beg last m with
  | zero =>
    rw [strrevLoop]
    split
    · exact congrArg m.cells (by omega)
    · rfl
  | succ n ih =>
    rw [strrevLoop]
    by_cases hlt : beg < last
    · rw [if_pos hlt, ih _ _ _ (by omega)]
      simp only [Memory.store_cells, Function.update_apply, Nat.add_right_inj]
      by_cases hbeg : j = beg
      · rw [if_neg (by omega), if_pos hbeg, if_pos (by omega)]
        exact congrArg m.cells (by omega)
      by_cases hlast : j = last
      · rw [if_neg (by omega), if_neg hbeg, if_pos hlast, if_pos (by omega)]
        exact congrArg m.cells (by omega)
      · rw [if_neg hbeg, if_neg hlast]
        by_cases hin : beg ≤ j ∧ j ≤ last
        · rw [if_pos hin, if_pos (by omega), if_neg (by omega), if_neg (by omega)]
          exact congrArg m.cells (by omega)
        · rw [if_neg hin, if_neg (by omega)]
    · rw [if_neg hlt]
      split
      · exact congrArg m.cells (by omega)
      · rfl

/-- The loop stores inside the range, if that has two bytes at least. -/
theorem strrevLoop_storesIn (s n beg last : ℕ) (m : Memory UInt8) :
    Memory.StoresIn {a | beg < last ∧ s + beg ≤ a ∧ a ≤ s + last} m
      (strrevLoop s n beg last m) := by
  induction n generalizing beg last m with
  | zero => exact .refl _ m
  | succ n ih =>
    rw [strrevLoop]
    split
    · rename_i hlt
      have hbeg : s + beg ∈ {a | beg < last ∧ s + beg ≤ a ∧ a ≤ s + last} :=
        ⟨hlt, by omega, by omega⟩
      have hlast : s + last ∈ {a | beg < last ∧ s + beg ≤ a ∧ a ≤ s + last} :=
        ⟨hlt, by omega, by omega⟩
      have hswap := ((Memory.StoresIn.refl _ m).store hlast (m.cells (s + beg))).store hbeg
        (m.cells (s + last))
      refine hswap.trans ((ih _ _ _).mono ?_)
      rintro a ⟨-, hl, hu⟩
      exact ⟨hlt, by omega, by omega⟩
    · exact .refl _ m

/-- **A string in memory**, with its NUL. -/
abbrev StringAt (m : Memory UInt8) (a : ℕ) (s : List UInt8) : Prop := Spells (bytesAt m a) s

namespace StringAt

variable {m : Memory UInt8} {a size : ℕ} {s : List UInt8} (h : StringAt m a s)

include h

/-- **`strrev` turns the string round.** -/
theorem strrev (hsize : s.length < size) :
    StringAt (strrev m a size) a s.reverse
      ∧ Memory.StoresIn {x | a ≤ x ∧ x < a + s.length} m (KernelDesign.strrev m a size) := by
  have hlast : s.length - 1 < 0 + s.length + 1 := by omega
  have hcells := strrevLoop_cells a s.length 0 (s.length - 1) m hlast
  rw [KernelDesign.strrev, h.strlen_eq hsize]
  refine ⟨⟨?_, ?_, fun c hc => h.ne_nul c (List.mem_reverse.mp hc)⟩, ?_⟩
  · rw [List.length_reverse]
    calc Buffer.first (bytesAt (strrevLoop a s.length 0 (s.length - 1) m) a) s.length
        = Buffer.first (fun j => bytesAt m a (s.length - 1 - j)) s.length := by
          refine Buffer.first_congr (fun j hj => ?_)
          refine (hcells j).trans ((if_pos ⟨Nat.zero_le j, by omega⟩).trans ?_)
          rw [Nat.zero_add]
          rfl
      _ = s.reverse := by rw [← Buffer.reverse_first, h.bytes]
  · rw [List.length_reverse]
    refine (hcells s.length).trans ?_
    split
    · -- Only the empty string ends where its last byte would be.
      rename_i hin
      have hempty : s.length = 0 := by omega
      rw [hempty] at hin ⊢
      have hnul := h.nul
      rw [hempty] at hnul
      exact hnul
    · exact h.nul
  · refine (strrevLoop_storesIn a s.length 0 (s.length - 1) m).mono ?_
    rintro x ⟨hlt, hl, hu⟩
    exact ⟨by omega, by omega⟩

end StringAt

/-! ## What `itoa` does -/

/-- The characters of digits in memory, as a buffer. -/
def digitBytes (ds : List ℕ) : Bytes := fun j => digitChar (ds.getD j 0)

/-- **The digit loop** writes the digits, the least significant one first,
and ends behind them. -/
theorem itoaLoop_eq {radix n v : ℕ} (hradix : 2 ≤ radix) (hv : v < radix ^ n) (p : ℕ)
    (m : Memory UInt8) :
    itoaLoop radix (n + 1) v p m
      = some (Memory.write (radix.digits v).length p (digitBytes (radix.digits v)) m,
          p + (radix.digits v).length) := by
  induction n generalizing v p m with
  | zero =>
    have hzero : v = 0 := by
      rw [Nat.pow_zero] at hv
      omega
    rw [hzero, itoaLoop, if_neg (Nat.lt_irrefl 0), Nat.digits_zero]
    rfl
  | succ n ih =>
    rw [itoaLoop]
    by_cases hpos : 0 < v
    · have hdiv : v / radix < radix ^ n :=
        Nat.div_lt_of_lt_mul (by rw [Nat.mul_comm, ← Nat.pow_succ]; exact hv)
      rw [if_pos hpos, ih hdiv, Nat.digits_of_two_le_of_pos hradix hpos, List.length_cons,
        Memory.write, Nat.add_right_comm, Nat.add_assoc p]
      have hrest : (digitBytes (v % radix :: radix.digits (v / radix))).drop 1
          = digitBytes (radix.digits (v / radix)) := by
        funext j
        rw [Buffer.drop_apply, Nat.add_comm]
        rfl
      rw [hrest]
      rfl
    · have hzero : v = 0 := Nat.eq_zero_of_not_pos hpos
      rw [if_neg hpos, hzero, Nat.digits_zero]
      rfl

/-- The characters of digits start at `0`. -/
theorem le_digitChar : ∀ d < 36, 0x30 ≤ (digitChar d).toNat := by
  decide +kernel

/-- A character below `0`, such as NUL or the minus sign, is no digit. -/
theorem digitChar_ne {d : ℕ} (hd : d < 36) {c : UInt8} (hc : c.toNat < 0x30) :
    digitChar d ≠ c := by
  rintro rfl
  exact absurd (le_digitChar d hd) (Nat.not_le.mpr hc)

/-- **The text of a number** in a base. -/
def numberText (radix v : ℕ) : List UInt8 := (Numerals.numeral radix v).map digitChar

/-- The digits as they are read back. -/
theorem digitBytes_first (ds : List ℕ) :
    (digitBytes ds).first ds.length = ds.map digitChar := by
  refine List.ext_getElem (by simp) (fun j hj hj' => ?_)
  have hlt : j < ds.length := by simpa using hj'
  simp [Buffer.first, digitBytes, hlt]

section

variable {radix : ℕ} (hradix : 2 ≤ radix) (hradix' : radix ≤ 36) (v : UInt32)

include hradix

/-- A 32-bit number has at most 32 digits. -/
theorem digits_length_le : (radix.digits v.toNat).length ≤ 32 := by
  rw [Nat.digits_length_le_iff (by omega)]
  exact Nat.lt_of_lt_of_le v.toNat_lt (Nat.pow_le_pow_left hradix 32)

include hradix'

/-- **The string before it is turned round**: the digits and the NUL behind
them. -/
theorem stringAt_digits (m : Memory UInt8) (buf : ℕ) :
    StringAt ((Memory.write (radix.digits v.toNat).length buf
        (digitBytes (radix.digits v.toNat)) m).store (buf + (radix.digits v.toNat).length) 0)
      buf ((radix.digits v.toNat).map digitChar) := by
  refine ⟨?_, ?_, fun c hc => ?_⟩
  · rw [List.length_map, ← digitBytes_first]
    refine Buffer.first_congr (fun j hj => ?_)
    show Function.update _ _ _ (buf + j) = _
    rw [Function.update_of_ne (by omega), Memory.write_cells,
      Buffer.copy_of_mem (by omega) (by omega), Nat.add_sub_cancel_left]
  · rw [List.length_map]
    exact Function.update_self _ _ _
  · obtain ⟨d, hd, rfl⟩ := List.mem_map.mp hc
    have hlt := Nat.digits_lt_base (by omega) hd
    exact digitChar_ne (by omega) (by decide)

/-- **`itoa` stores the numeral of the number**, and nothing outside the
first 33 bytes of the buffer. -/
theorem itoa_spec {size : ℕ} (hsize : 33 ≤ size) (m : Memory UInt8) (buf : ℕ) :
    ∃ m', itoa m v buf size radix = some m'
      ∧ StringAt m' buf (numberText radix v.toNat)
      ∧ Memory.StoresIn {a | buf ≤ a ∧ a < buf + 33} m m' := by
  rw [itoa]
  by_cases hzero : v = 0
  · have hnat : v.toNat = 0 := by
      rw [hzero]
      rfl
    have h0 : buf ∈ {a | buf ≤ a ∧ a < buf + 33} := ⟨le_refl _, by omega⟩
    have h1 : buf + 1 ∈ {a | buf ≤ a ∧ a < buf + 33} := ⟨by omega, by omega⟩
    have htext : numberText radix 0 = [0x30] := rfl
    rw [if_pos hzero, hnat, htext]
    have hne : ∀ c ∈ [(0x30 : UInt8)], c ≠ 0 := by
      intro c hc
      rw [List.mem_singleton.mp hc]
      decide
    refine ⟨_, rfl, ⟨?_, Function.update_self _ _ _, hne⟩,
      ((Memory.StoresIn.refl _ m).store h0 _).store h1 _⟩
    refine congrArg (fun c => [c]) ?_
    show Function.update (Function.update m.cells buf 0x30) (buf + 1) 0 (buf + 0) = 0x30
    rw [Function.update_of_ne (by omega), Nat.add_zero, Function.update_self]
  · have hlen := digits_length_le hradix v
    have hnat : v.toNat ≠ 0 := fun h => hzero (UInt32.toNat_inj.mp h)
    have hstring := stringAt_digits hradix hradix' v m buf
    obtain ⟨hrev, hstores⟩ := hstring.strrev (show _ < size by rw [List.length_map]; omega)
    have hloop := itoaLoop_eq hradix
      (Nat.lt_of_lt_of_le v.toNat_lt (Nat.pow_le_pow_left hradix 32)) buf m
    rw [if_neg hzero, hloop]
    refine ⟨_, rfl, ?_, ?_⟩
    · rw [numberText, Numerals.numeral, if_neg hnat, List.map_reverse]
      exact hrev
    · have hnul : buf + (radix.digits v.toNat).length ∈ {a | buf ≤ a ∧ a < buf + 33} :=
        ⟨by omega, by omega⟩
      have hwrite := Memory.write_storesIn (radix.digits v.toNat).length buf
        (digitBytes (radix.digits v.toNat)) m
      rw [List.length_map] at hstores
      exact ((hwrite.widen (le_refl buf) (by omega)).store hnul 0).trans
        (hstores.widen (le_refl buf) (by omega))

end

/-! ## Texts that denote a number -/

/-- The digit of a character. -/
def digitValue (c : UInt8) : ℕ := lookup.idxOf c

theorem digitValue_digitChar : ∀ d < 36, digitValue (digitChar d) = d := by
  decide +kernel

/-- **The value of a text** of digits. -/
def textValue (radix : ℕ) (s : List UInt8) : ℕ := Numerals.value radix (s.map digitValue)

/-- **A text denotes a number** in a base: digits of the base, at least one
and at most 32, no zero in front of others, and of that value. -/
structure Denotes (radix : ℕ) (s : List UInt8) (v : ℕ) : Prop where
  digits : ∀ c ∈ s, ∃ d < radix, c = digitChar d
  ne_nil : s ≠ []
  length_le : s.length ≤ 32
  leading : s.head? = some 0x30 → s = [0x30]
  zero : v = 0 → s = [0x30]
  value : textValue radix s = v

section

variable {radix : ℕ} (hradix : 2 ≤ radix) (hradix' : radix ≤ 36)

include hradix hradix'

/-- The digits of the text of a number. -/
theorem map_digitValue (v : ℕ) :
    (numberText radix v).map digitValue = Numerals.numeral radix v := by
  calc (numberText radix v).map digitValue
      = (Numerals.numeral radix v).map (digitValue ∘ digitChar) := List.map_map
    _ = (Numerals.numeral radix v).map id := by
        refine List.map_congr_left (fun d hd => digitValue_digitChar d ?_)
        have hlt := Numerals.lt_of_mem_numeral (by omega) hd
        omega
    _ = Numerals.numeral radix v := List.map_id _

/-- **The text of a number denotes it.** -/
theorem numberText_denotes (v : UInt32) :
    Denotes radix (numberText radix v.toNat) v.toNat := by
  refine ⟨fun c hc => ?_, fun hnil => ?_, ?_, fun hhead => ?_, fun hzero => ?_, ?_⟩
  · obtain ⟨d, hd, rfl⟩ := List.mem_map.mp hc
    exact ⟨d, Numerals.lt_of_mem_numeral (by omega) hd, rfl⟩
  · exact Numerals.numeral_ne_nil radix v.toNat (List.map_eq_nil_iff.mp hnil)
  · rw [numberText, List.length_map]
    exact Numerals.length_numeral_le (by omega) (by decide)
      (Nat.lt_of_lt_of_le v.toNat_lt (Nat.pow_le_pow_left hradix 32))
  · -- The digit of the character is the digit in front.
    have hdigit : (Numerals.numeral radix v.toNat).head? = some 0 := by
      rw [← map_digitValue hradix hradix', List.head?_map, hhead]
      rfl
    rw [numberText, Numerals.head_numeral hdigit]
    rfl
  · rw [hzero]
    rfl
  · rw [textValue, map_digitValue hradix hradix', Numerals.value_numeral]

end

/-! ## The conversions of `printf` -/

/-- What `puts` prints from an address in an object of `size` bytes. -/
def textAt (m : Memory UInt8) (a size : ℕ) : List UInt8 :=
  (bytesAt m a).first (strlen (bytesAt m a) size)

/-- **`%x`**, with `conv_buf` at an address. -/
def convHex (m : Memory UInt8) (convBuf : ℕ) (v : UInt32) :
    Option (List UInt8 × Memory UInt8) :=
  (itoa m v convBuf 64 16).map (fun m => (textAt m convBuf 64, m))

/-- The loop of `%#x` that puts zeros in front. -/
def padLoop (convBuf : ℕ) : ℕ → ℕ → Memory UInt8 → Memory UInt8
  | 0, _, m => m
  | n + 1, i, m => if i < 8 then padLoop convBuf n (i + 1) (m.store (convBuf + i) 0x30) else m

/-- **`%#x`**: the digits are at offset 8, and the zeros go from their count
up to there. -/
def convHexAlternate (m : Memory UInt8) (convBuf : ℕ) (v : UInt32) :
    Option (List UInt8 × Memory UInt8) :=
  (itoa m v (convBuf + 8) 56 16).map (fun m =>
    let startingIndex := strlen (bytesAt m (convBuf + 8)) 56
    let m := padLoop convBuf 8 startingIndex m
    (textAt m (convBuf + startingIndex) (64 - startingIndex), m))

/-- **`%u`**. -/
def convUnsigned (m : Memory UInt8) (convBuf : ℕ) (v : UInt32) :
    Option (List UInt8 × Memory UInt8) :=
  (itoa m v convBuf 36 10).map (fun m => (textAt m convBuf 36, m))

/-- **`%d`**. The negation of an `int32_t` wraps. -/
def convSigned (m : Memory UInt8) (convBuf : ℕ) (v : UInt32) :
    Option (List UInt8 × Memory UInt8) :=
  let value := i32 v.toNat
  if value < 0 then
    (itoa (m.store convBuf 0x2D) (UInt32.ofNat (u32 (i32 (-value)))) (convBuf + 1) 35 10).map
      (fun m => (textAt m convBuf 36, m))
  else (itoa m v convBuf 36 10).map (fun m => (textAt m convBuf 36, m))

namespace StringAt

variable {m m' : Memory UInt8} {a size : ℕ} {s : List UInt8}

/-- `puts` prints the string. -/
theorem textAt_eq (h : StringAt m a s) (hsize : s.length < size) : textAt m a size = s := by
  rw [textAt, h.strlen_eq hsize, h.bytes]

/-- A string that no store has changed. -/
theorem of_cells_eq (h : StringAt m a s)
    (hm : ∀ x, a ≤ x → x ≤ a + s.length → m'.cells x = m.cells x) : StringAt m' a s := by
  refine ⟨?_, (hm _ (by omega) (le_refl _)).trans h.nul, h.ne_nul⟩
  refine (Buffer.first_congr (fun j hj => ?_)).trans h.bytes
  exact hm (a + j) (by omega) (by omega)

/-- A string with one more character in front. -/
theorem cons {c : UInt8} (h : StringAt m (a + 1) s) (hc : m.cells a = c) (hne : c ≠ 0) :
    StringAt m a (c :: s) := by
  refine Spells.cons ?_ hc hne
  rw [bytesAt, Buffer.drop_drop]
  exact h

/-- A string with `k` times a character in front. -/
theorem replicate {k : ℕ} {c : UInt8} (h : StringAt m (a + k) s)
    (hc : ∀ j, j < k → m.cells (a + j) = c) (hne : c ≠ 0) :
    StringAt m a (List.replicate k c ++ s) := by
  induction k generalizing a with
  | zero => exact h
  | succ k ih =>
    rw [List.replicate_succ, List.cons_append]
    refine (ih (a := a + 1) (by rw [Nat.add_assoc, Nat.add_comm 1]; exact h)
      (fun j hj => ?_)).cons (hc 0 (by omega)) hne
    rw [Nat.add_assoc]
    exact hc (1 + j) (by omega)

end StringAt

/-- The padding is one write of zeros. -/
theorem padLoop_eq (convBuf : ℕ) {n i : ℕ} (h : i ≤ 8) (hn : 8 ≤ i + n) (m : Memory UInt8) :
    padLoop convBuf n i m = Memory.write (8 - i) (convBuf + i) (fun _ => 0x30) m := by
  induction n generalizing i m with
  | zero =>
    rw [show 8 - i = 0 by omega]
    rfl
  | succ n ih =>
    rw [padLoop]
    by_cases hlt : i < 8
    · rw [if_pos hlt, ih (by omega) (by omega), show 8 - i = 8 - (i + 1) + 1 by omega]
      rfl
    · rw [if_neg hlt, show 8 - i = 0 by omega]
      rfl

section

variable (m : Memory UInt8) (convBuf : ℕ) (v : UInt32)

/-- **`%x` and `%u`** print the text of their argument, from a buffer of
`size` bytes. -/
theorem conv_spec {radix size : ℕ} (hradix : 2 ≤ radix) (hradix' : radix ≤ 36)
    (hsize : 33 ≤ size) :
    ∃ m', (itoa m v convBuf size radix).map (fun m => (textAt m convBuf size, m))
        = some (numberText radix v.toNat, m')
      ∧ Memory.StoresIn {a | convBuf ≤ a ∧ a < convBuf + size} m m' := by
  obtain ⟨m', hitoa, hstring, hstores⟩ := itoa_spec hradix hradix' v hsize m convBuf
  have hlen := (numberText_denotes hradix hradix' v).length_le
  refine ⟨m', ?_, hstores.widen (le_refl convBuf) (by omega)⟩
  rw [hitoa, Option.map_some, hstring.textAt_eq (by omega)]

/-- **`%#x` prints eight digits**: those of its argument, behind zeros. -/
theorem convHexAlternate_spec :
    ∃ m', convHexAlternate m convBuf v
        = some (List.replicate (8 - (numberText 16 v.toNat).length) 0x30
            ++ numberText 16 v.toNat, m')
      ∧ (numberText 16 v.toNat).length ≤ 8
      ∧ Memory.StoresIn {a | convBuf ≤ a ∧ a < convBuf + 64} m m' := by
  obtain ⟨m', hitoa, hstring, hstores⟩ :=
    itoa_spec (show 2 ≤ 16 by decide) (by decide) v (show 33 ≤ 56 by decide) m (convBuf + 8)
  have hlen : (numberText 16 v.toNat).length ≤ 8 := by
    rw [numberText, List.length_map]
    exact Numerals.length_numeral_le (by decide) (by decide) v.toNat_lt
  generalize numberText 16 v.toNat = t at *
  have hpad := padLoop_eq convBuf (n := 8) hlen (by omega) m'
  have hcells : ∀ x, (Memory.write (8 - t.length) (convBuf + t.length) (fun _ => 0x30) m').cells x
      = if convBuf + t.length ≤ x ∧ x < convBuf + 8 then 0x30 else m'.cells x := by
    intro x
    rw [Memory.write_cells]
    exact if_congr (by omega) rfl rfl
  have hkept : StringAt (padLoop convBuf 8 t.length m')
      (convBuf + t.length + (8 - t.length)) t := by
    rw [show convBuf + t.length + (8 - t.length) = convBuf + 8 by omega]
    refine hstring.of_cells_eq (fun x hl _ => ?_)
    rw [hpad, hcells, if_neg (by omega)]
  have hpadded := hkept.replicate (c := 0x30) (fun j hj => by
    rw [hpad, hcells, if_pos (by omega)]) (by decide)
  refine ⟨padLoop convBuf 8 t.length m', ?_, hlen, ?_⟩
  · rw [convHexAlternate, hitoa, Option.map_some, hstring.strlen_eq (by omega)]
    dsimp only
    rw [hpadded.textAt_eq (by rw [List.length_append, List.length_replicate]; omega)]
  · rw [hpad]
    exact (hstores.widen (by omega) (by omega)).trans
      ((Memory.write_storesIn _ _ _ _).widen (by omega) (by omega))

/-- The value of a text with an optional minus sign. -/
def signedValue (s : List UInt8) : ℤ :=
  if s.head? = some 0x2D then -(textValue 10 s.tail : ℤ) else textValue 10 s

/-- No text of digits starts with a minus sign. -/
theorem Denotes.head_ne_minus {radix n : ℕ} {s : List UInt8} (hradix : radix ≤ 36)
    (h : Denotes radix s n) : s.head? ≠ some 0x2D := by
  intro hhead
  obtain ⟨d, hd, hc⟩ := h.digits _ (List.mem_of_head? hhead)
  exact digitChar_ne (by omega) (by decide) hc.symm

/-- The argument of `itoa` for a negative number is its magnitude, also for
the most negative one. -/
theorem negated_toNat {v : UInt32} (h : i32 v.toNat < 0) :
    (UInt32.ofNat (u32 (i32 (-i32 v.toNat)))).toNat = (-i32 v.toNat).toNat := by
  obtain ⟨hl, hu⟩ := i32_bounds v.toNat
  generalize i32 v.toNat = z at *
  have hneg : u32 (i32 (-z)) = (-z).toNat := by
    rw [u32_i32, u32_eq]
    omega
  rw [hneg, UInt32.toNat_ofNat', Nat.mod_eq_of_lt (by omega)]

/-- What `%d` prints. -/
def signedText (v : UInt32) : List UInt8 :=
  if i32 v.toNat < 0 then 0x2D :: numberText 10 (-i32 v.toNat).toNat
  else numberText 10 (i32 v.toNat).toNat

/-- An `int32_t` that is not negative is its bits. -/
theorem toNat_i32 {v : UInt32} (h : ¬ i32 v.toNat < 0) : (i32 v.toNat).toNat = v.toNat := by
  have hlt := v.toNat_lt
  obtain hlow | hhigh := Nat.lt_or_ge v.toNat 2147483648
  · rw [i32_of_bounds (by omega) (by omega), Int.toNat_natCast]
  · have hover := i32_of_overflow (z := v.toNat) (by omega) (by omega)
    omega

/-- **`%d`** prints its text. -/
theorem convSigned_spec :
    ∃ m', convSigned m convBuf v = some (signedText v, m')
      ∧ Memory.StoresIn {a | convBuf ≤ a ∧ a < convBuf + 36} m m' := by
  rw [convSigned, signedText]
  by_cases hneg : i32 v.toNat < 0
  · simp only [if_pos hneg]
    rw [← negated_toNat hneg]
    generalize UInt32.ofNat (u32 (i32 (-i32 v.toNat))) = w
    obtain ⟨m', hitoa, hstring, hstores⟩ :=
      itoa_spec (show 2 ≤ 10 by decide) (by decide) w (show 33 ≤ 35 by decide)
        (m.store convBuf 0x2D) (convBuf + 1)
    have hsign : m'.cells convBuf = 0x2D :=
      (hstores.cells_eq (fun h => absurd h.1 (by omega))).trans (Function.update_self _ _ _)
    have hlen := (numberText_denotes (show 2 ≤ 10 by decide) (by decide) w).length_le
    have htext := (hstring.cons hsign (by decide)).textAt_eq
      (show _ < 36 by rw [List.length_cons]; omega)
    refine ⟨m', by rw [hitoa, Option.map_some, htext], ?_⟩
    have hfirst : convBuf ∈ {a | convBuf ≤ a ∧ a < convBuf + 36} := ⟨le_refl _, by omega⟩
    exact ((Memory.StoresIn.refl _ m).store hfirst _).trans
      (hstores.widen (by omega) (by omega))
  · simp only [if_neg hneg]
    rw [toNat_i32 hneg]
    exact conv_spec m convBuf v (by decide) (by decide) (by decide)

/-- **The text of `%d`** for a negative number is a minus sign in front of
its magnitude. -/
theorem signedText_of_neg (h : i32 v.toNat < 0) :
    ∃ t, signedText v = 0x2D :: t ∧ Denotes 10 t (-i32 v.toNat).toNat := by
  have hdenotes := numberText_denotes (show 2 ≤ 10 by decide) (by decide)
    (UInt32.ofNat (u32 (i32 (-i32 v.toNat))))
  rw [negated_toNat h] at hdenotes
  exact ⟨_, if_pos h, hdenotes⟩

/-- The text of `%d` for another number is the one of `%u`. -/
theorem signedText_of_nonneg (h : ¬ i32 v.toNat < 0) :
    Denotes 10 (signedText v) (i32 v.toNat).toNat := by
  rw [signedText, if_neg h, toNat_i32 h]
  exact numberText_denotes (by decide) (by decide) v

/-- The text of `%d` has the value of the number. -/
theorem signedValue_signedText : signedValue (signedText v) = i32 v.toNat := by
  by_cases hneg : i32 v.toNat < 0
  · obtain ⟨t, htext, hdenotes⟩ := signedText_of_neg v hneg
    rw [htext, signedValue, List.head?_cons, if_pos rfl, List.tail_cons, hdenotes.value]
    omega
  · have hdenotes := signedText_of_nonneg v hneg
    rw [signedValue, if_neg (hdenotes.head_ne_minus (by decide)), hdenotes.value]
    omega

/-- **Numbers print faithfully.** `itoa` stores a text that denotes the
number, in every base; `%u` and `%x` print one in base 10 and 16, `%d` one
of the signed number, and `%#x` eight digits of that value. -/
theorem numbers_print_faithfully :
    (∀ radix, 2 ≤ radix → radix ≤ 36 → ∀ size, 33 ≤ size →
        ∃ s m', itoa m v convBuf size radix = some m' ∧ StringAt m' convBuf s
          ∧ Denotes radix s v.toNat
          ∧ Memory.StoresIn {a | convBuf ≤ a ∧ a < convBuf + 33} m m')
      ∧ (∃ s m', convUnsigned m convBuf v = some (s, m') ∧ Denotes 10 s v.toNat
        ∧ Memory.StoresIn {a | convBuf ≤ a ∧ a < convBuf + 36} m m')
      ∧ (∃ s m', convHex m convBuf v = some (s, m') ∧ Denotes 16 s v.toNat
        ∧ Memory.StoresIn {a | convBuf ≤ a ∧ a < convBuf + 64} m m')
      ∧ (∃ s m', convSigned m convBuf v = some (s, m') ∧ signedValue s = i32 v.toNat
        ∧ (if i32 v.toNat < 0 then
            ∃ t, s = 0x2D :: t ∧ Denotes 10 t (-i32 v.toNat).toNat
          else Denotes 10 s (i32 v.toNat).toNat)
        ∧ Memory.StoresIn {a | convBuf ≤ a ∧ a < convBuf + 36} m m')
      ∧ ∃ s m', convHexAlternate m convBuf v = some (s, m') ∧ s.length = 8
        ∧ (∀ c ∈ s, ∃ d < 16, c = digitChar d) ∧ textValue 16 s = v.toNat
        ∧ Memory.StoresIn {a | convBuf ≤ a ∧ a < convBuf + 64} m m' := by
  refine ⟨fun radix hradix hradix' size hsize => ?_, ?_, ?_, ?_, ?_⟩
  · obtain ⟨m', hitoa, hstring, hstores⟩ := itoa_spec hradix hradix' v hsize m convBuf
    exact ⟨_, m', hitoa, hstring, numberText_denotes hradix hradix' v, hstores⟩
  · obtain ⟨m', hconv, hstores⟩ :=
      conv_spec m convBuf v (show 2 ≤ 10 by decide) (by decide) (show 33 ≤ 36 by decide)
    exact ⟨_, m', hconv, numberText_denotes (by decide) (by decide) v, hstores⟩
  · obtain ⟨m', hconv, hstores⟩ :=
      conv_spec m convBuf v (show 2 ≤ 16 by decide) (by decide) (show 33 ≤ 64 by decide)
    exact ⟨_, m', hconv, numberText_denotes (by decide) (by decide) v, hstores⟩
  · obtain ⟨m', hconv, hstores⟩ := convSigned_spec m convBuf v
    have hvalue := signedValue_signedText v
    by_cases hneg : i32 v.toNat < 0
    · simp only [if_pos hneg]
      exact ⟨_, m', hconv, hvalue, signedText_of_neg v hneg, hstores⟩
    · simp only [if_neg hneg]
      exact ⟨_, m', hconv, hvalue, signedText_of_nonneg v hneg, hstores⟩
  · obtain ⟨m', hconv, hlen, hstores⟩ := convHexAlternate_spec m convBuf v
    have hdenotes := numberText_denotes (show 2 ≤ 16 by decide) (by decide) v
    refine ⟨_, m', hconv, ?_, fun c hc => ?_, ?_, hstores⟩
    · rw [List.length_append, List.length_replicate]
      omega
    · obtain hzero | hdigit := List.mem_append.mp hc
      · exact ⟨0, by decide, List.eq_of_mem_replicate hzero⟩
      · exact hdenotes.digits c hdigit
    · rw [textValue, List.map_append, List.map_replicate]
      exact (Numerals.value_replicate_append _ _ _).trans hdenotes.value

end

end KernelDesign
