import Mathlib.Data.List.Basic
import Mathlib.Tactic.Common

/-!
# A scrolling terminal

Characters are laid into rows of a given width. A row ends at an end-of-row
character, or as soon as it is full. A screen of a given height shows the last
rows. This file says what one character does to what is shown: it appears at the
cursor, and a row that ends moves the cursor or the whole screen by one row.
-/

namespace Nimbu

/-- The rows laid out so far. -/
structure Terminal (α : Type*) where
  /-- The rows that have ended, the oldest first. -/
  ended : List (List α)
  /-- The row of the cursor. -/
  current : List α

namespace Terminal

variable {α : Type*}

/-- Nothing has been written. -/
def empty : Terminal α := ⟨[], []⟩

/-- End the current row. -/
def endRow (t : Terminal α) : Terminal α := ⟨t.ended ++ [t.current], []⟩

/-- Put a character at the end of the current row. -/
def append (t : Terminal α) (a : α) : Terminal α := ⟨t.ended, t.current ++ [a]⟩

/-- Write a character that ends the row or is put in it, and end a row that is full. -/
def write (width : ℕ) (ends : α → Prop) [DecidablePred ends] (t : Terminal α) (a : α) :
    Terminal α :=
  if ends a then t.endRow
  else if width ≤ (t.append a).current.length then (t.append a).endRow
  else t.append a

/-- The rows into which a text is laid. -/
def layout (width : ℕ) (ends : α → Prop) [DecidablePred ends] (text : List α) : Terminal α :=
  text.foldl (write width ends) empty

/-- All rows, the current one last. -/
def rows (t : Terminal α) : List (List α) := t.ended ++ [t.current]

/-- The last `height` rows. -/
def screen (height : ℕ) (t : Terminal α) : List (List α) := t.rows.drop (t.rows.length - height)

/-- The character shown in a row and a column of the screen. -/
def shown (height : ℕ) (t : Terminal α) (y x : ℕ) : Option α :=
  ((t.screen height)[y]?).bind fun row => row[x]?

/-- The row of the cursor on the screen. -/
def line (height : ℕ) (t : Terminal α) : ℕ := min (t.rows.length - 1) (height - 1)

variable {t : Terminal α} {a : α} {height y x i : ℕ}

/-- The character in a row, counted from the oldest, and a column. -/
def glyph (t : Terminal α) (i x : ℕ) : Option α := (t.rows[i]?).bind fun row => row[x]?

theorem length_rows (t : Terminal α) : t.rows.length = t.ended.length + 1 := by
  simp [rows]

/-- The screen starts at a row that depends on the number of rows only. -/
theorem shown_eq (t : Terminal α) (height y x : ℕ) :
    t.shown height y x = t.glyph (t.ended.length + 1 - height + y) x := by
  unfold shown screen glyph
  rw [List.getElem?_drop, length_rows]

/-- There is nothing below the current row. -/
theorem glyph_below (hi : t.ended.length < i) : t.glyph i x = none := by
  have hnone : t.rows[i]? = none := by
    apply List.getElem?_eq_none
    rw [length_rows]
    omega
  rw [glyph, hnone, Option.bind_none]

/-- Ending a row changes no character. -/
theorem glyph_endRow : t.endRow.glyph i x = t.glyph i x := by
  by_cases hi : i < t.ended.length + 1
  · have hrow : t.endRow.rows[i]? = t.rows[i]? := by
      rw [rows, endRow, List.getElem?_append_left (by simpa using hi)]
      rfl
    rw [glyph, hrow, glyph]
  · rw [glyph_below (t := t) (by omega)]
    by_cases hlast : i = t.ended.length + 1
    · subst hlast
      simp [glyph, rows, endRow]
    · apply glyph_below
      simp only [endRow, List.length_append, List.length_singleton]
      omega

/-- A character put at the end of the current row appears there and nowhere else. -/
theorem glyph_append : (t.append a).glyph i x =
    if i = t.ended.length ∧ x = t.current.length then some a else t.glyph i x := by
  unfold glyph rows append
  rcases Nat.lt_trichotomy i t.ended.length with hi | rfl | hi
  · rw [if_neg (by omega), List.getElem?_append_left hi, List.getElem?_append_left hi]
  · simp only [List.getElem?_append_right (Nat.le_refl _), Nat.sub_self, List.getElem?_cons_zero,
      Option.bind_some, true_and]
    rcases Nat.lt_trichotomy x t.current.length with hx | rfl | hx
    · rw [if_neg (by omega), List.getElem?_append_left hx]
    · simp
    · rw [if_neg (by omega), List.getElem?_eq_none (by simp; omega),
        List.getElem?_eq_none (by omega)]
  · rw [if_neg (by omega), List.getElem?_eq_none (by simp; omega),
      List.getElem?_eq_none (by simp; omega)]

/-- The cursor's row is the last one. -/
theorem line_eq (t : Terminal α) (height : ℕ) :
    t.line height = min t.ended.length (height - 1) := by
  rw [line, length_rows, Nat.add_sub_cancel]

/-- A character put at the end of the current row appears at the cursor. -/
theorem shown_append (hheight : 0 < height) : (t.append a).shown height y x =
    if y = t.line height ∧ x = t.current.length then some a else t.shown height y x := by
  rw [shown_eq, shown_eq, glyph_append]
  have hcursor : t.ended.length + 1 - height + y = t.ended.length ↔ y = t.line height := by
    rw [line_eq]
    omega
  simp only [append, hcursor]

/-- Ending a row while there is room below moves the cursor. -/
theorem shown_endRow_of_room (hroom : t.ended.length + 1 < height) :
    t.endRow.shown height y x = t.shown height y x := by
  have hlength : t.endRow.ended.length = t.ended.length + 1 := by simp [endRow]
  rw [shown_eq, shown_eq, glyph_endRow, hlength,
    show t.ended.length + 1 + 1 - height = t.ended.length + 1 - height by omega]

/-- Ending a row on the last line moves all rows up. -/
theorem shown_endRow_of_full (hfull : height ≤ t.ended.length + 1) :
    t.endRow.shown height y x = t.shown height (y + 1) x := by
  have hlength : t.endRow.ended.length = t.ended.length + 1 := by simp [endRow]
  rw [shown_eq, shown_eq, glyph_endRow, hlength,
    show t.ended.length + 1 + 1 - height + y = t.ended.length + 1 - height + (y + 1) by omega]

/-- There is nothing below the screen. -/
theorem shown_below (hy : height ≤ y) : t.shown height y x = none := by
  rw [shown_eq]
  exact glyph_below (by omega)

/-- Ending a row moves the cursor down, or leaves it on the last line. -/
theorem line_endRow (t : Terminal α) (height : ℕ) :
    t.endRow.line height = min (t.ended.length + 1) (height - 1) := by
  rw [line_eq]
  simp [endRow]

end Terminal

end Nimbu
