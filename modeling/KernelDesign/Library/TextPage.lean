import Mathlib.Data.Nat.Notation
import Mathlib.Logic.Function.Basic

/-!
# Text pages

A page of text is as wide as it is told and has no end: cells in reading
order, cut into rows of `w`, and the position the next character goes to.
A break moves the position to the start of the next row. A row that is
filled needs nothing, as the position behind its last cell is the start of
the next row.

What a display of fixed height shows is a window of the page, and what is
written on the display can be said of the page, where nothing scrolls.
-/

/-- **A page**: its cells in reading order, and the position of the next
character. -/
structure TextPage (α : Type*) where
  cell : ℕ → α
  pos : ℕ

namespace TextPage

variable {α : Type*} {w : ℕ}

/-- The row of the position. -/
def row (w : ℕ) (p : TextPage α) : ℕ := p.pos / w

/-- The column of the position. -/
def col (w : ℕ) (p : TextPage α) : ℕ := p.pos % w

/-- The page whose cells all hold `b`. -/
def blank (b : α) : TextPage α := ⟨fun _ => b, 0⟩

/-- **Fill a cell** and go to the next one. -/
def put (p : TextPage α) (a : α) : TextPage α :=
  ⟨Function.update p.cell p.pos a, p.pos + 1⟩

/-- **Start a new row.** -/
def newRow (w : ℕ) (p : TextPage α) : TextPage α := ⟨p.cell, w * (p.row w + 1)⟩

/-- **Write a character**, of which some break the row. -/
def write (w : ℕ) (isBreak : α → Bool) (p : TextPage α) (a : α) : TextPage α :=
  if isBreak a then p.newRow w else p.put a

/-- **Write a text.** -/
def writes (w : ℕ) (isBreak : α → Bool) (p : TextPage α) (text : List α) : TextPage α :=
  text.foldl (write w isBreak) p

variable {isBreak : α → Bool} {p : TextPage α}

/-- The start of row `r` is in it. -/
theorem row_start (hw : 0 < w) (cell : ℕ → α) (r : ℕ) :
    (⟨cell, w * r⟩ : TextPage α).row w = r := Nat.mul_div_cancel_left r hw

theorem writes_cons (p : TextPage α) (a : α) (text : List α) :
    p.writes w isBreak (a :: text) = (p.write w isBreak a).writes w isBreak text := rfl

/-- A text is written up to some point, and then the rest of it. -/
theorem writes_append (p : TextPage α) (s t : List α) :
    p.writes w isBreak (s ++ t) = (p.writes w isBreak s).writes w isBreak t :=
  List.foldl_append

/-- **Writing moves the position on.** -/
theorem pos_lt_write (hw : 0 < w) (p : TextPage α) (a : α) :
    p.pos < (p.write w isBreak a).pos := by
  rw [write]
  split
  · exact Nat.lt_mul_div_succ p.pos hw
  · exact Nat.lt_succ_self _

/-- The rows go down. -/
theorem row_le_write (hw : 0 < w) (p : TextPage α) (a : α) :
    p.row w ≤ (p.write w isBreak a).row w :=
  Nat.div_le_div_right (Nat.le_of_lt (pos_lt_write hw p a))

/-- The rows of a whole text go down. -/
theorem row_le_writes (hw : 0 < w) (p : TextPage α) (text : List α) :
    p.row w ≤ (p.writes w isBreak text).row w := by
  induction text generalizing p with
  | nil => exact Nat.le_refl _
  | cons a text ih => exact Nat.le_trans (row_le_write hw p a) (ih (p.write w isBreak a))

/-! ## Text without breaks -/

/-- **Cells overwritten** with a text from position `pos` on. -/
def overwrite (cell : ℕ → α) (pos : ℕ) (text : List α) (q : ℕ) : α :=
  if q < pos then cell q else text[q - pos]?.getD (cell q)

/-- **A text without breaks** overwrites the cells from the position on. -/
theorem writes_of_plain (p : TextPage α) {text : List α} (h : ∀ a ∈ text, isBreak a = false) :
    p.writes w isBreak text = ⟨overwrite p.cell p.pos text, p.pos + text.length⟩ := by
  induction text generalizing p with
  | nil =>
    have hcell : overwrite p.cell p.pos [] = p.cell := by
      funext q
      simp [overwrite]
    rw [hcell]
    rfl
  | cons a text ih =>
    have hput : p.write w isBreak a = p.put a :=
      if_neg (by simp [h a List.mem_cons_self])
    rw [writes_cons, ih _ (fun b hb => h b (List.mem_cons_of_mem a hb)), hput]
    have hcell : overwrite (p.put a).cell (p.put a).pos text
        = overwrite p.cell p.pos (a :: text) := by
      funext q
      show (if q < p.pos + 1 then Function.update p.cell p.pos a q
        else text[q - (p.pos + 1)]?.getD (Function.update p.cell p.pos a q))
          = if q < p.pos then p.cell q else (a :: text)[q - p.pos]?.getD (p.cell q)
      rcases Nat.lt_trichotomy q p.pos with hlt | rfl | hgt
      · rw [if_pos (by omega), if_pos hlt, Function.update_of_ne (Nat.ne_of_lt hlt)]
      · simp
      · rw [if_neg (by omega), if_neg (by omega), Function.update_of_ne (Nat.ne_of_gt hgt),
          show q - p.pos = q - (p.pos + 1) + 1 by omega, List.getElem?_cons_succ]
    rw [hcell, List.length_cons]
    congr 1
    exact Nat.add_right_comm p.pos 1 text.length

end TextPage
