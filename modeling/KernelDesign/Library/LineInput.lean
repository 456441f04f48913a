import Mathlib.Data.List.Basic
import Mathlib.Data.List.DropRight

/-!
# Line input

What a terminal that takes its input by the line makes of the keys: the
characters typed since the last line was entered, and the lines entered so
far, the latest first. A character is taken while there is room, the last
one can be erased, and a line is entered whole.

`Within` bounds the lengths and keeps the end-of-line mark out of the
lines. Every operation keeps it, so a reader that stops at the first mark
gets a line and nothing else.

Where the keys are kept in a list, the input is a fold over it (`key`), and
what is pending is the edited text of the keys since the last mark
(`pending_foldl_key`).
-/

/-- **The input of one terminal.** -/
structure LineInput (α : Type*) where
  pending : List α
  committed : List (List α)

namespace LineInput

variable {α : Type*}

/-- No input yet. -/
def empty : LineInput α := ⟨[], []⟩

/-- **A character is typed**; it is dropped when `cap` are pending. -/
def insert (cap : ℕ) (l : LineInput α) (c : α) : LineInput α :=
  if cap ≤ l.pending.length then l else { l with pending := l.pending ++ [c] }

/-- **The last character is erased.** -/
def erase (l : LineInput α) : LineInput α := { l with pending := l.pending.dropLast }

/-- **The line is entered.** -/
def commit (l : LineInput α) : LineInput α := ⟨[], l.pending :: l.committed⟩

/-- A line of at most `cap` characters without the mark. -/
def IsLine (cap : ℕ) (mark : α) (s : List α) : Prop := s.length ≤ cap ∧ mark ∉ s

/-- **All lines are short and without the mark.** -/
structure Within (cap : ℕ) (mark : α) (l : LineInput α) : Prop where
  pending : IsLine cap mark l.pending
  committed : ∀ s ∈ l.committed, IsLine cap mark s

variable {cap : ℕ} {mark : α} {l : LineInput α}

theorem IsLine.nil (cap : ℕ) (mark : α) : IsLine cap mark [] :=
  ⟨Nat.zero_le cap, List.not_mem_nil⟩

theorem within_empty (cap : ℕ) (mark : α) : Within cap mark (empty : LineInput α) :=
  ⟨IsLine.nil cap mark, fun _ hs => absurd hs List.not_mem_nil⟩

theorem Within.insert (h : l.Within cap mark) {c : α} (hc : c ≠ mark) :
    (l.insert cap c).Within cap mark := by
  unfold LineInput.insert
  split
  · exact h
  · rename_i hroom
    refine ⟨⟨?_, fun hmem => ?_⟩, h.committed⟩
    · rw [List.length_append, List.length_singleton]
      omega
    · rcases List.mem_append.mp hmem with hold | hnew
      · exact h.pending.2 hold
      · exact hc (List.mem_singleton.mp hnew).symm

theorem Within.erase (h : l.Within cap mark) : l.erase.Within cap mark := by
  refine ⟨⟨?_, fun hmem => h.pending.2 ((List.dropLast_subset _) hmem)⟩, h.committed⟩
  have hlen := h.pending.1
  show l.pending.dropLast.length ≤ cap
  rw [List.length_dropLast]
  omega

theorem Within.commit (h : l.Within cap mark) : l.commit.Within cap mark := by
  refine ⟨IsLine.nil cap mark, fun s hs => ?_⟩
  rcases List.mem_cons.mp hs with rfl | hold
  · exact h.pending
  · exact h.committed s hold

/-! ## The input as a fold -/

section Fold

variable [DecidableEq α] {edit : List α → α → List α} {cs : List α}

/-- **A key**: the mark enters the line, and every other key edits it. -/
def key (edit : List α → α → List α) (mark : α) (l : LineInput α) (c : α) : LineInput α :=
  if c = mark then l.commit else { l with pending := edit l.pending c }

/-- **The text of the keys**: those since the last mark, edited. -/
def text (edit : List α → α → List α) (mark : α) (cs : List α) : List α :=
  (cs.rtakeWhile (fun c => c ≠ mark)).foldl edit []

theorem text_concat_mark : text edit mark (cs ++ [mark]) = [] := by
  rw [text, List.rtakeWhile_concat_neg _ _ _ (by simp)]
  rfl

theorem text_concat {c : α} (hc : c ≠ mark) :
    text edit mark (cs ++ [c]) = edit (text edit mark cs) c := by
  rw [text, List.rtakeWhile_concat_pos _ _ _ (by simpa using hc), List.foldl_concat]
  rfl

/-- **What is pending is the text of the keys.** -/
theorem pending_foldl_key (edit : List α → α → List α) (mark : α) (cs : List α) :
    (cs.foldl (key edit mark) empty).pending = text edit mark cs := by
  induction cs using List.reverseRecOn with
  | nil => rfl
  | append_singleton cs c ih =>
    rw [List.foldl_concat, key]
    by_cases hc : c = mark
    · rw [if_pos hc, hc, text_concat_mark]
      rfl
    · rw [if_neg hc, text_concat hc, ih]

/-- **The line entered last** is the text of the keys before the last
mark. -/
theorem committed_foldl_key {line : List α} {rest : List (List α)}
    (h : (cs.foldl (key edit mark) empty).committed = line :: rest) :
    ∃ cs₁ cs₂, cs = cs₁ ++ mark :: cs₂ ∧ mark ∉ cs₂ ∧ line = text edit mark cs₁ := by
  induction cs using List.reverseRecOn generalizing line rest with
  | nil => cases h
  | append_singleton cs c ih =>
    rw [List.foldl_concat, key] at h
    by_cases hc : c = mark
    · rw [if_pos hc] at h
      obtain ⟨hline, -⟩ := List.cons.inj h
      rw [pending_foldl_key] at hline
      exact ⟨cs, [], by rw [hc], List.not_mem_nil, hline.symm⟩
    · rw [if_neg hc] at h
      obtain ⟨cs₁, cs₂, hcs, hmark, hline⟩ := ih h
      refine ⟨cs₁, cs₂ ++ [c], ?_, fun hmem => ?_, hline⟩
      · rw [hcs, List.append_assoc, List.cons_append]
      · obtain hmem | hmem := List.mem_append.mp hmem
        · exact hmark hmem
        · exact hc (List.mem_singleton.mp hmem).symm

end Fold

end LineInput
